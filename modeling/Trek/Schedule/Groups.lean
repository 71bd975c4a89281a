/-
# Groups of tool calls that run at once

`planToolGroups` of `core/algebra/process-schedule.ts` cuts a batch of tool calls
into groups whose calls run at once. It opens a new group for a call on a path
that the group writes already. It does not look for the paths the group reads,
nor for two names of one file, so the groups are free of conflicts exactly when
no call writes what an earlier call of its group reads, and no two names meet
(`planToolGroups_iff`).
-/
import Trek.Messages
import Trek.Store.PathOps

namespace Trek

/-! ### What a call does -/

/-- `ScheduledCall`. -/
structure ScheduledCall where
  id : String
  name : String
  args : Json
  when : Option Bool
  deriving DecidableEq

def READ_TOOLS : List String := ["read", "grep", "find", "ls"]

def WRITE_TOOLS : List String := ["edit", "write"]

/-- The commands of `MUTATING_BASH`. -/
def mutatingCommands : List String :=
  ["rm", "mv", "cp", "tee", "mkdir", "rmdir", "touch", "truncate", "unlink", "install", "ln"]

/-- `[^\n]*(\s-i\b|--in-place)` from here on. -/
def inPlaceAhead : List Char → Bool
  | [] => false
  | c :: cs =>
    "--in-place".toList.isPrefixOf (c :: cs) || (isJsSpace c && startsWithWord "-i" cs) ||
      (c ≠ '\n' && inPlaceAhead cs)

/-- `MUTATING_BASH.test(command)`. -/
def MUTATING_BASH (command : String) : Bool :=
  (positions none command.toList).any fun (before, text) =>
    (before.all (fun c => isJsSpace c || c = ';' || c = '&' || c = '|') && mutatingCommands.any (startsWithWord · text)) ||
      (!before.any isWordChar && startsWithWord "sed" text && inPlaceAhead (text.drop 3)) ||
      text.head?.any (fun c => c = '<' || c = '>')

/-- `bashMutates`. -/
def bashMutates (command : String) : Bool := MUTATING_BASH command || (parseBashPathOps command).isSome

example : bashMutates "cat a | tee b" = true ∧ bashMutates "sed -i.bak p a" = true ∧ bashMutates "sed -n p a" = false := by
  decide

/-- A non-empty string in a field of the arguments. -/
def stringArg (args : Json) (key : String) : Option String :=
  match args.get? key with
  | some (.str s) => if s.toList.isEmpty then none else some s
  | _ => none

/-- `callPath`. -/
def callPath (args : Json) : Option String := (stringArg args "path").or (stringArg args "file_path")

/-- `bashCommand`. -/
def bashCommand (args : Json) : Option String :=
  match args.get? "command" with
  | some (.str s) => some s
  | _ => none

/-- `CallClass`. -/
inductive CallClass
  | read (path : Option String)
  | write (path : String)
  | join
  | barrier
  deriving DecidableEq

/-- `classifyCall`. -/
def classifyCall (call : ScheduledCall) : CallClass :=
  if call.name ∈ READ_TOOLS then .read (if call.name = "read" then callPath call.args else none)
  else if call.name ∈ WRITE_TOOLS then .write ((callPath call.args).getD call.id)
  else if call.name = "bash" then
    if bashMutates ((bashCommand call.args).getD "") then .barrier else .join
  else .join

/-! ### The groups -/

/-- `close`. -/
def closeGroup (openGroup : List ScheduledCall) : List (List ScheduledCall) :=
  if openGroup.isEmpty then [] else [openGroup]

/-- The loop of `planToolGroups`, with the open group and the paths it writes. -/
def planLoop : List ScheduledCall → List String → List ScheduledCall → List (List ScheduledCall)
  | openGroup, _, [] => closeGroup openGroup
  | openGroup, written, call :: calls =>
    match classifyCall call with
    | .barrier => closeGroup openGroup ++ [call] :: planLoop [] [] calls
    | .write path =>
      if path ∈ written then closeGroup openGroup ++ planLoop [call] [path] calls
      else planLoop (openGroup ++ [call]) (written ++ [path]) calls
    | .read (some path) =>
      if path ∈ written then closeGroup openGroup ++ planLoop [call] [] calls
      else planLoop (openGroup ++ [call]) written calls
    | .read none | .join => planLoop (openGroup ++ [call]) written calls

/-- `planToolGroups`. -/
def planToolGroups (calls : List ScheduledCall) : List (List ScheduledCall) := planLoop [] [] calls

theorem closeGroup_flatten (openGroup : List ScheduledCall) : (closeGroup openGroup).flatten = openGroup := by
  unfold closeGroup
  split
  · rename_i h
    rw [List.isEmpty_iff.mp h]
    rfl
  · simp

theorem planLoop_flatten : ∀ (calls openGroup : List ScheduledCall) (written : List String),
    (planLoop openGroup written calls).flatten = openGroup ++ calls
  | [], openGroup, _ => by rw [planLoop, closeGroup_flatten, List.append_nil]
  | call :: calls, openGroup, written => by
    rw [planLoop]
    split
    · rw [List.flatten_append, List.flatten_cons, closeGroup_flatten, planLoop_flatten calls]
      simp
    · split
      · rw [List.flatten_append, closeGroup_flatten, planLoop_flatten calls, List.singleton_append]
      · rw [planLoop_flatten calls, List.append_assoc, List.singleton_append]
    · split
      · rw [List.flatten_append, closeGroup_flatten, planLoop_flatten calls, List.singleton_append]
      · rw [planLoop_flatten calls, List.append_assoc, List.singleton_append]
    · rw [planLoop_flatten calls, List.append_assoc, List.singleton_append]
    · rw [planLoop_flatten calls, List.append_assoc, List.singleton_append]

/-! ### Conflicts -/

/-- The path a call reads. -/
def readPath (call : ScheduledCall) : Option String :=
  match classifyCall call with
  | .read path => path
  | _ => none

/-- The path a call writes. -/
def writePath (call : ScheduledCall) : Option String :=
  match classifyCall call with
  | .write path => some path
  | _ => none

section

variable (resolve : String → String)

/-- The first call may write a file that the second reads or writes. `resolve`
gives the file that a path stands for. -/
def WritesInto (a b : ScheduledCall) : Prop :=
  ∃ p ∈ writePath a, ∃ q, (q ∈ readPath b ∨ q ∈ writePath b) ∧ resolve p = resolve q

/-- The two calls may run at once. -/
def Apart (a b : ScheduledCall) : Prop := ¬WritesInto resolve a b ∧ ¬WritesInto resolve b a

/-- What a plan is to be: all calls in order, no conflict within a group, and a
barrier alone in its group. -/
structure ConflictFree (calls : List ScheduledCall) (groups : List (List ScheduledCall)) : Prop where
  calls : groups.flatten = calls
  apart : ∀ group ∈ groups, group.Pairwise (Apart resolve)
  alone : ∀ group ∈ groups, ∀ call ∈ group, classifyCall call = .barrier → group = [call]

/-- No call writes what an earlier call of its group reads, and no path of a
call is another name of a file that matters to it: `read` and `written` are what
the group reads and writes so far. A call on a path that is written already
begins a new group, and a barrier stands between two groups. -/
def noReadThenWrite : List String → List String → List ScheduledCall → Prop
  | _, _, [] => True
  | read, written, call :: calls =>
    match classifyCall call with
    | .barrier => noReadThenWrite [] [] calls
    | .write path =>
      if path ∈ written then noReadThenWrite [] [path] calls
      else (∀ q ∈ read ++ written, resolve path ≠ resolve q) ∧ noReadThenWrite read (written ++ [path]) calls
    | .read (some path) =>
      if path ∈ written then noReadThenWrite [path] [] calls
      else (∀ q ∈ written, resolve path ≠ resolve q) ∧ noReadThenWrite (read ++ [path]) written calls
    | .read none | .join => noReadThenWrite read written calls

/-! ### When the groups are free of conflicts -/

/-- The paths some calls read. -/
def readPaths (calls : List ScheduledCall) : List String := calls.filterMap readPath

/-- The paths some calls write. -/
def writePaths (calls : List ScheduledCall) : List String := calls.filterMap writePath

/-- A call is apart from all calls of a group. -/
theorem apart_all_iff (group : List ScheduledCall) (call : ScheduledCall) :
    (∀ a ∈ group, Apart resolve a call) ↔
      (∀ p ∈ writePath call, ∀ q ∈ readPaths group ++ writePaths group, resolve p ≠ resolve q) ∧
        ∀ p, p ∈ readPath call ∨ p ∈ writePath call → ∀ q ∈ writePaths group, resolve p ≠ resolve q := by
  simp only [Apart, WritesInto, readPaths, writePaths, List.mem_append, List.mem_filterMap, Option.mem_def]
  constructor
  · intro h
    refine ⟨?_, ?_⟩
    · rintro p hp q (⟨a, ha, hq⟩ | ⟨a, ha, hq⟩) heq
      · exact (h a ha).2 ⟨p, hp, q, Or.inl hq, heq⟩
      · exact (h a ha).2 ⟨p, hp, q, Or.inr hq, heq⟩
    · rintro p hp q ⟨a, ha, hq⟩ heq
      exact (h a ha).1 ⟨q, hq, p, hp, heq.symm⟩
  · rintro ⟨h1, h2⟩ a ha
    refine ⟨?_, ?_⟩
    · rintro ⟨p, hp, q, hq, heq⟩
      exact h2 q hq p ⟨a, ha, hp⟩ heq.symm
    · rintro ⟨p, hp, q, hq | hq, heq⟩
      · exact h1 p hp q (Or.inl ⟨a, ha, hq⟩) heq
      · exact h1 p hp q (Or.inr ⟨a, ha, hq⟩) heq

theorem pairwise_closeGroup (openGroup : List ScheduledCall) :
    (∀ group ∈ closeGroup openGroup, group.Pairwise (Apart resolve)) ↔ openGroup.Pairwise (Apart resolve) := by
  unfold closeGroup
  split
  · rename_i h
    rw [List.isEmpty_iff.mp h]
    simp
  · simp

theorem pairwise_snoc (openGroup : List ScheduledCall) (call : ScheduledCall) :
    (openGroup ++ [call]).Pairwise (Apart resolve) ↔
      openGroup.Pairwise (Apart resolve) ∧ ∀ a ∈ openGroup, Apart resolve a call := by
  rw [List.pairwise_append]
  simp

/-- From any state of the loop on. -/
theorem planLoop_apart_iff : ∀ (calls openGroup : List ScheduledCall) (written : List String),
    written = writePaths openGroup →
    ((∀ group ∈ planLoop openGroup written calls, group.Pairwise (Apart resolve)) ↔
      openGroup.Pairwise (Apart resolve) ∧ noReadThenWrite resolve (readPaths openGroup) written calls)
  | [], openGroup, _, _ => by
    rw [planLoop, pairwise_closeGroup, noReadThenWrite, and_true]
  | call :: calls, openGroup, written, hw => by
    have happart := apart_all_iff resolve openGroup call
    rw [planLoop, noReadThenWrite]
    cases hc : classifyCall call with
    | barrier =>
      have hrest := planLoop_apart_iff calls [] [] rfl
      simp only [List.mem_append, List.mem_cons, or_imp, forall_and, forall_eq, pairwise_closeGroup, hrest,
        List.pairwise_singleton, List.Pairwise.nil, true_and]
      rfl
    | write path =>
      have hwp : writePath call = some path := by simp [writePath, hc]
      have hrp : readPath call = none := by simp [readPath, hc]
      by_cases hp : path ∈ written
      · have hrest := planLoop_apart_iff calls [call] [path] (by simp [writePaths, hwp])
        simp only [hp, ↓reduceIte, List.mem_append, or_imp, forall_and, pairwise_closeGroup, hrest,
          List.pairwise_singleton, true_and]
        simp [readPaths, hrp]
      · have hrest := planLoop_apart_iff calls (openGroup ++ [call]) (written ++ [path])
          (by simp [writePaths, hwp, hw])
        have hread : readPaths (openGroup ++ [call]) = readPaths openGroup := by simp [readPaths, hrp]
        have hcall : (∀ a ∈ openGroup, Apart resolve a call) ↔
            ∀ q ∈ readPaths openGroup ++ written, resolve path ≠ resolve q := by
          rw [happart, hwp, hrp, hw]
          simp only [Option.mem_def, Option.some.injEq, forall_eq', reduceCtorEq, false_or, and_iff_left_iff_imp,
            List.mem_append]
          exact fun h q hq => h q (Or.inr hq)
        simp only [hp, ↓reduceIte]
        rw [hrest, hread, pairwise_snoc, hcall, and_assoc]
    | read path =>
      have hwp : writePath call = none := by simp [writePath, hc]
      have hrp : readPath call = path := by simp [readPath, hc]
      cases path with
      | none =>
        have hrest := planLoop_apart_iff calls (openGroup ++ [call]) written (by simp [writePaths, hwp, hw])
        have hcall : ∀ a ∈ openGroup, Apart resolve a call := by
          rw [happart, hwp, hrp]
          simp
        have hread : readPaths (openGroup ++ [call]) = readPaths openGroup := by simp [readPaths, hrp]
        simp only
        rw [hrest, hread, pairwise_snoc, and_iff_left hcall]
      | some path =>
        by_cases hp : path ∈ written
        · have hrest := planLoop_apart_iff calls [call] [] (by simp [writePaths, hwp])
          simp only [hp, ↓reduceIte, List.mem_append, or_imp, forall_and, pairwise_closeGroup, hrest,
            List.pairwise_singleton, true_and]
          simp [readPaths, hrp]
        · have hrest := planLoop_apart_iff calls (openGroup ++ [call]) written (by simp [writePaths, hwp, hw])
          have hread : readPaths (openGroup ++ [call]) = readPaths openGroup ++ [path] := by simp [readPaths, hrp]
          have hcall : (∀ a ∈ openGroup, Apart resolve a call) ↔ ∀ q ∈ written, resolve path ≠ resolve q := by
            rw [happart, hwp, hrp, hw]
            simp
          simp only [hp, ↓reduceIte]
          rw [hrest, hread, pairwise_snoc, hcall, and_assoc]
    | join =>
      have hwp : writePath call = none := by simp [writePath, hc]
      have hrp : readPath call = none := by simp [readPath, hc]
      have hrest := planLoop_apart_iff calls (openGroup ++ [call]) written (by simp [writePaths, hwp, hw])
      have hcall : ∀ a ∈ openGroup, Apart resolve a call := by
        rw [happart, hwp, hrp]
        simp
      have hread : readPaths (openGroup ++ [call]) = readPaths openGroup := by simp [readPaths, hrp]
      simp only
      rw [hrest, hread, pairwise_snoc, and_iff_left hcall]

theorem closeGroup_alone {openGroup : List ScheduledCall} (h : ∀ a ∈ openGroup, classifyCall a ≠ .barrier) :
    ∀ group ∈ closeGroup openGroup, ∀ call ∈ group, classifyCall call = .barrier → group = [call] := by
  intro group hg call hcall hb
  unfold closeGroup at hg
  split at hg
  · cases hg
  · rw [List.mem_singleton.mp hg] at hcall
    exact absurd hb (h call hcall)

/-- A barrier is alone in its group. -/
theorem planLoop_alone : ∀ (calls openGroup : List ScheduledCall) (written : List String),
    (∀ a ∈ openGroup, classifyCall a ≠ .barrier) →
    ∀ group ∈ planLoop openGroup written calls, ∀ call ∈ group, classifyCall call = .barrier → group = [call]
  | [], _, _, h => closeGroup_alone h
  | c :: calls, openGroup, written, h => by
    have hpush : classifyCall c ≠ .barrier → ∀ a ∈ openGroup ++ [c], classifyCall a ≠ .barrier := by
      intro hc a ha
      rcases List.mem_append.mp ha with ha | ha
      · exact h a ha
      · rw [List.mem_singleton.mp ha]; exact hc
    have hnew : classifyCall c ≠ .barrier → ∀ a ∈ [c], classifyCall a ≠ .barrier := by
      intro hc a ha
      rw [List.mem_singleton.mp ha]; exact hc
    rw [planLoop]
    split
    · intro group hg call hcall hb
      rcases List.mem_append.mp hg with hg | hg
      · exact closeGroup_alone h group hg call hcall hb
      · rcases List.mem_cons.mp hg with rfl | hg
        · rw [List.mem_singleton.mp hcall]
        · exact planLoop_alone calls [] [] (by simp) group hg call hcall hb
    · rename_i hc
      have hc : classifyCall c ≠ .barrier := by simp [hc]
      split
      · intro group hg
        rcases List.mem_append.mp hg with hg | hg
        · exact closeGroup_alone h group hg
        · exact planLoop_alone calls [c] _ (hnew hc) group hg
      · exact planLoop_alone calls _ _ (hpush hc)
    · rename_i hc
      have hc : classifyCall c ≠ .barrier := by simp [hc]
      split
      · intro group hg
        rcases List.mem_append.mp hg with hg | hg
        · exact closeGroup_alone h group hg
        · exact planLoop_alone calls [c] _ (hnew hc) group hg
      · exact planLoop_alone calls _ _ (hpush hc)
    · rename_i hc
      exact planLoop_alone calls _ _ (hpush (by simp [hc]))
    · rename_i hc
      exact planLoop_alone calls _ _ (hpush (by simp [hc]))

/-- **The groups are free of conflicts exactly when no call writes what an
earlier call of its group reads, and no two names of one file meet in a group.** -/
theorem planToolGroups_iff (calls : List ScheduledCall) :
    ConflictFree resolve calls (planToolGroups calls) ↔ noReadThenWrite resolve [] [] calls := by
  have hflat : (planToolGroups calls).flatten = calls := planLoop_flatten calls [] []
  have halone := planLoop_alone calls [] [] (by simp)
  have hiff := planLoop_apart_iff resolve calls [] [] rfl
  simp only [List.Pairwise.nil, true_and] at hiff
  exact ⟨fun h => hiff.mp h.apart, fun h => ⟨hflat, hiff.mpr h, halone⟩⟩

end

/-! ### Read, then write -/

/-- A read of a file and an edit of it. -/
def readThenEdit : List ScheduledCall :=
  [⟨"1", "read", .obj [("path", .str "a.txt")], none⟩, ⟨"2", "edit", .obj [("path", .str "a.txt")], none⟩]

/-- The two run at once. -/
theorem planToolGroups_readThenEdit :
    ¬ ∀ (resolve : String → String) (calls : List ScheduledCall), ConflictFree resolve calls (planToolGroups calls) := by
  intro h
  have hgroups : planToolGroups readThenEdit = [readThenEdit] := by decide
  have happart := (h id readThenEdit).apart readThenEdit (by rw [hgroups]; exact List.mem_singleton_self _)
  have hwrites : WritesInto id ⟨"2", "edit", .obj [("path", .str "a.txt")], none⟩
      ⟨"1", "read", .obj [("path", .str "a.txt")], none⟩ :=
    ⟨"a.txt", by decide, "a.txt", Or.inl (by decide), rfl⟩
  exact (List.pairwise_cons.mp happart).1 _ (List.mem_singleton_self _) |>.2 hwrites

end Trek
