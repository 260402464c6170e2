/-!
# `Scope.Locator` — what a symbol is known by

A symbol is a declaration of a module or a local variable.
-/

namespace UnionTyping

/-- Identifies a symbol. -/
inductive Locator where
  | declaration (home name : String)
  | variable (name : String)
deriving DecidableEq

namespace Locator

/-- The symbol's own name, without its module. -/
def name : Locator → String
  | .declaration _ name => name
  | .variable name => name

/-- The symbol as text: a declaration stands behind its module. -/
def text : Locator → String
  | .declaration home name => home ++ "." ++ name
  | .variable name => name

end Locator
end UnionTyping
