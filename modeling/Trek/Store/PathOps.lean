/-
# Path operations of bash commands

`parseBashPathOps` of `core/trek-store/path-ops.ts`: the deletions and the
renaming that a simple `rm`, `unlink` or `mv` command does. Commands with pipes,
lists, substitutions or redirections are not read.
-/
import Trek.Lib.Text

namespace Trek

/-- `ParsedPathOp`. -/
inductive ParsedPathOp
  | delete (path : String)
  | rename (source target : String)
  deriving DecidableEq

/-- The characters of `UNSAFE`: vertical bar, semicolon, ampersand, backtick,
dollar, parentheses and angle brackets. -/
def unsafeChars : List Char := ['|', ';', '&', Char.ofNat 0x60, '$', '(', ')', '<', '>']

/-- The loop of `tokenize`, with the open quote and what is read of the current
token. -/
def tokenizeFrom : Option Char → List Char → List Char → List String
  | _, current, [] => if current.isEmpty then [] else [String.ofList current]
  | some quote, current, c :: cs =>
    if c = quote then tokenizeFrom none current cs else tokenizeFrom (some quote) (current ++ [c]) cs
  | none, current, c :: cs =>
    if c = '\'' ∨ c = '"' then tokenizeFrom (some c) current cs
    else if isJsSpace c then
      if current.isEmpty then tokenizeFrom none [] cs else String.ofList current :: tokenizeFrom none [] cs
    else tokenizeFrom none (current ++ [c]) cs

/-- `tokenize`. -/
def tokenize (command : String) : List String := tokenizeFrom none [] (jsTrim command).toList

/-- `parseBashPathOps`; `none` is `null`. -/
def parseBashPathOps (command : String) : Option (List ParsedPathOp) :=
  let trimmed := jsTrim command
  if trimmed.toList.isEmpty || trimmed.toList.any (· ∈ unsafeChars) then none
  else
    match tokenize trimmed with
    | [] => none
    | cmd :: args =>
      let rest := args.filter fun t => t.toList.head? ≠ some '-'
      if cmd = "rm" ∨ cmd = "unlink" then
        if rest.isEmpty then none else some (rest.map .delete)
      else if cmd = "mv" then
        match rest with
        | [source, target] => some [.rename source target]
        | _ => none
      else none

example : parseBashPathOps "  mv -f 'a b.txt' c.txt " = some [.rename "a b.txt" "c.txt"] := by decide

end Trek
