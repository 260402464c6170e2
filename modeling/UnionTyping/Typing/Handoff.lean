import UnionTyping.Solve.Error
import UnionTyping.Typing.Tree

/-!
# `Typing.Handoff` — what a typed body must satisfy before it is handed on

All types of a finished body are exposed. A node may depend on a variable only if the variable is free in
the declaration's own type or in the type of a local binding inside the body: any other variable is left
undetermined by the program.
-/

namespace UnionTyping
namespace TypedExpr

/-- The variables that the nodes of a body may depend on. -/
def allowedVars (a : Arena) (type : Ty) (body : TypedExpr) : List TyVar :=
  a.freeVars type ++ body.bindingTypes.flatMap a.freeVars

/-- The first node that depends on a variable not among the given ones. -/
def danglingNode? (a : Arena) (allowed : List TyVar) (body : TypedExpr) : Option TypedExpr :=
  body.nodes.find? fun e => (a.freeVars e.type).any fun v => !allowed.contains v

/-- The body with its types exposed, if no node depends on an undetermined variable. -/
def handOff (a : Arena) (type : Ty) (body : TypedExpr) : Except Diagnostic TypedExpr :=
  let body := body.mapTypes a.expose
  match body.danglingNode? a (body.allowedVars a type) with
  | none => .ok body
  | some e => .error ((InferenceError.ambiguous e.type).diagnostic.withSpan (some e.span))

end TypedExpr
end UnionTyping
