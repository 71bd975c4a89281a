/-
# The file a call names

A call of `read`, `write` or `edit` names its file in its arguments, by `path` or, where that is no
string, by `file_path`. The laws, the record of files that were read and the claims of branches all
read the arguments in this way; the tools themselves look at `path` alone.
-/
import Trek.Session.Entry

namespace Trek

/-- `typeof args[key] === "string" ? args[key] : undefined`. -/
def stringField (args : Json) (key : String) : Option String :=
  match args.get? key with
  | some (.str s) => some s
  | _ => none

/-- The path of the arguments, if they have any that is not empty. -/
def argumentPath (args : Json) : Option String :=
  ((stringField args "path").or (stringField args "file_path")).filter truthy

/-- A call of this tool changes the file it names. -/
def mutatesFile (toolName : String) : Bool := toolName = "write" || toolName = "edit"

section

-- `resolveToCwd(path, cwd)`; `none` where it throws
variable (resolveToCwd : String → Option String)

/-- The file that `write` and `edit` change. The empty path is the working directory, which is no file. -/
def writtenPath (toolName : String) (args : Json) : Option String :=
  if mutatesFile toolName then ((stringField args "path").filter truthy).bind resolveToCwd else none

/-- `mutatedPath`. -/
def mutatedPath (toolName : String) (args : Json) : Option String :=
  if mutatesFile toolName then (argumentPath args).bind resolveToCwd else none

variable {resolveToCwd} {toolName : String} {args : Json} {path : String}

/-- The file a tool changes is the one its arguments are taken to name. -/
theorem mutatedPath_of_writtenPath (h : writtenPath resolveToCwd toolName args = some path) :
    mutatedPath resolveToCwd toolName args = some path := by
  unfold writtenPath at h
  unfold mutatedPath argumentPath
  cases hm : mutatesFile toolName with
  | false =>
    rw [hm] at h
    cases h
  | true =>
    rw [hm, if_pos rfl] at h
    rw [if_pos rfl]
    cases hs : stringField args "path" with
    | none =>
      rw [hs] at h
      cases h
    | some s =>
      rw [hs] at h
      exact h

end

end Trek
