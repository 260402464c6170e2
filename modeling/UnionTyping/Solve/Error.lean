import UnionTyping.Binding.Exposure
import UnionTyping.Diagnostic.Basic
import UnionTyping.Scope.Locator

/-!
# `Solve.Error` — why inference failed

Each cause keeps the types it speaks of, exposed at the moment of failure. `message` words the cause, and
`note?` the remark that is shown beside the place in the source.
-/

namespace UnionTyping

/-- Why inference failed. -/
inductive InferenceError where
  /-- Two types do not unify. -/
  | mismatch (expected found : Ty)
  /-- No alternative of a function accepts any alternative of an argument. -/
  | application (function argument : Ty)
  /-- No scope has the symbol. -/
  | undefined (symbol : Locator)
  /-- A module is not loaded. -/
  | unresolved (home reason : String)
  /-- No type is left for a declaration. -/
  | emptyDeclaration (symbol : Locator)
  /-- A type depends on a variable that nothing determines. -/
  | ambiguous (type : Ty)
  /-- Comparing two types was given up. -/
  | endless (left right : Ty)
deriving DecidableEq

namespace InferenceError

/-- The cause in words. -/
def message : InferenceError → String
  | .mismatch expected found =>
      "type mismatch: expected `" ++ expected.text ++ "`, found `" ++ found.text ++ "`"
  | .application function argument =>
      "cannot apply `" ++ function.text ++ "` to `" ++ argument.text ++ "`"
  | .undefined symbol => "undefined symbol `" ++ symbol.text ++ "`"
  | .unresolved home reason => "cannot resolve module `" ++ home ++ "`: " ++ reason
  | .emptyDeclaration symbol => "declaration `" ++ symbol.text ++ "` has no admissible type"
  | .ambiguous type => "type `" ++ type.text ++ "` still contains unresolved variables"
  | .endless left right =>
      "comparing `" ++ left.text ++ "` with `" ++ right.text ++ "` does not end"

/-- The remark beside the place in the source. -/
def note? : InferenceError → Option String
  | .mismatch expected found =>
      some ("expected " ++ expected.generalizedText ++ ", found " ++ found.generalizedText)
  | .application function _ => some ("function has type " ++ function.generalizedText)
  | .ambiguous type => some (type.generalizedText ++ " is ambiguous here")
  | _ => none

/-- The cause as a diagnostic that points nowhere yet. -/
def diagnostic (e : InferenceError) : Diagnostic :=
  { Diagnostic.error e.message with inlineNote := e.note? }

end InferenceError
end UnionTyping
