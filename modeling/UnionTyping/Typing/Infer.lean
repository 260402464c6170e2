import UnionTyping.Solve.Builtin
import UnionTyping.Solve.Declare
import UnionTyping.Typing.Tree

/-!
# `Typing.Infer` — the types of expressions

Expressions are typed from the leaves up. The context changes on the way whether or not typing succeeds, but
what is opened for a part of an expression is closed again on both exits (`within`).

A parameter of a function is pinned while its body is typed. A local binding is typed as a declaration of
its own that may refer to itself, and is polymorphic in the expression behind it. The branches of a
conditional are unified if they can be; otherwise the conditional has the union of both types.
-/

namespace UnionTyping

/-- A step of typing: a diagnostic or a value, and in either case the context afterwards. -/
abbrev Check := ExceptT Diagnostic (StateM Context)

namespace Check

variable {α β : Type}

/-- A step of inference whose failure points to a range of source. -/
def located (span : Span) (step : Context → Except InferenceError α × Context) : Check α := fun c =>
  match step c with
  | (.ok a, c) => (.ok a, c)
  | (.error e, c) => (.error (e.diagnostic.withSpan (some span)), c)

/-- Opens something, runs a step with it, and closes it again whether or not the step succeeds. -/
def within (opening : Context → β × Context) (closing : β → Context → Context)
    (step : β → Check α) : Check α := fun c =>
  let (b, c) := opening c
  let (outcome, c) := step b c
  (outcome, closing b c)

/-- A step as the body of a declaration; what it typed is added to the bodies typed so far. -/
def asBody (step : Check TypedExpr) : Body Diagnostic (List TypedExpr) := fun typed c =>
  match step c with
  | (.ok e, c) => (.ok e.type, typed ++ [e], c)
  | (.error d, c) => (.error d, typed, c)

end Check

namespace Typing

open Check

/-! ## Names -/

/-- The symbol that a path refers to: qualified, it says so itself; otherwise a local variable, a
    declaration of the module, or an operator, whichever is defined first. -/
def resolve (c : Context) (home : String) (p : Path) : Locator :=
  match p.home with
  | some qualifier => .declaration qualifier p.name
  | none =>
      let choices : List Locator :=
        [.variable p.name, .declaration home p.name, Builtin.locator p.name]
      (choices.find? c.environment.isDefined).getD (.variable p.name)

/-- A use of a symbol. -/
def reference (span : Span) (l : Locator) : Check TypedExpr := do
  let t ← located span fun c => c.typeOf l
  return .reference span t ⟨l, t⟩

/-! ## Expressions -/

/-- The type of a literal. -/
def literalType : Literal → Ty
  | .integer _ => .integer
  | .double _ => .double
  | .string _ => .string
  | .boolean _ => .boolean

/-- The application of a typed function to a typed argument. -/
def applied (span : Span) (f a : TypedExpr) : Check TypedExpr := do
  let t ← located span fun c => c.apply f.type a.type
  return .apply span t f a

/-- Opens the scope of a parameter: a fresh variable, defined and pinned. -/
def openParameter (x : Ident) (c : Context) : Ty × Context :=
  let (v, c) := c.enter.fresh
  (v, (c.define (.variable x.name) v).pin v)

/-- Closes the scope of a parameter. -/
def closeParameter (v : Ty) (c : Context) : Context :=
  (c.unpin v).leave

/-- The type of a conditional whose branches are typed. -/
def branchType (span : Span) (a b : Ty) : Check Ty := do
  match ← located span fun c =>
      let (verdict, c) := c.unify a b
      match verdict with
      | .endless => (.error (.endless (c.expose a) (c.expose b)), c)
      | _ => (.ok verdict, c) with
  | .unified => return (← get).expose a
  | _ =>
      let c ← get
      match Ty.union? [c.expose a, c.expose b] with
      | some t => return t
      | none => throw (Diagnostic.errorAt "conditional has no admissible type" span)

/-- A local binding's value, typed as a declaration that may refer to itself, and the type found. -/
def boundValue (x : Ident) (value : Check TypedExpr) : Check (Ty × TypedExpr) := fun c =>
  match c.declare InferenceError.diagnostic (.variable x.name) (asBody value) [] with
  | (.ok t, typed :: _, c) => (.ok (t, typed), c)
  | (.ok _, [], c) => (.error (Diagnostic.errorAt "let binding has no value" x.span), c)
  | (.error d, _, c) => (.error (d.withSpan (some x.span)), c)

/-- Types an expression of the module `home`. -/
def infer (home : String) : Expr → Check TypedExpr
  | .literal span v => return .literal span (literalType v) v
  | .name span p => do reference span (resolve (← get) home p)
  | .apply span f a => do
      let f ← infer home f
      let a ← infer home a
      applied span f a
  | .binary span op l r => do
      let f ← reference span (Builtin.locator op.symbol)
      let l ← infer home l
      let r ← infer home r
      let half ← applied span f l
      applied span half r
  | .unary span op x => do
      let f ← reference span (Builtin.locator op.declaredName)
      let x ← infer home x
      applied span f x
  | .lambda span x body => do
      let (v, body) ← within (openParameter x) closeParameter fun v => do
        return (v, ← infer home body)
      let c ← get
      return .lambda span (.func (c.expose v) body.type) ⟨.variable x.name, v⟩ body
  | .conditional span c a b => do
      let c ← infer home c
      located c.span fun ctx => ctx.expect .boolean c.type
      let a ← infer home a
      let b ← infer home b
      let t ← branchType span a.type b.type
      return .conditional span t c a b
  | .binding span x value body =>
      within (fun c => ((), c.enter)) (fun _ c => c.leave) fun _ => do
        let (t, value) ← boundValue x (infer home value)
        let body ← infer home body
        return .binding span body.type ⟨.variable x.name, t⟩ value body

end Typing
end UnionTyping
