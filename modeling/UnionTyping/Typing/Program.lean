import UnionTyping.Dependency.Groups
import UnionTyping.Typing.Handoff
import UnionTyping.Typing.Infer

/-!
# `Typing.Program` — the types of modules and of expressions on their own

The declarations of a module are typed after those they refer to, and together with those they refer to in a
circle. Declaring a name again replaces its earlier declaration. An expression on its own becomes the
declaration `it` once it is typed, and may refer to the previous one.
-/

namespace UnionTyping
namespace Typing

/-! ## Groups of declarations -/

/-- The symbol of a declaration. -/
def declared (home : String) (d : Decl) : Locator :=
  .declaration home d.name.name

/-- Hands the typed bodies of a group on. -/
def handOffAll (a : Arena) (home : String) :
    List (Decl × Ty × TypedExpr) → Except Diagnostic (List TypedDecl)
  | [] => .ok []
  | (d, t, body) :: rest => do
      let body ← body.handOff a t
      let more ← handOffAll a home rest
      return ⟨declared home d, t, body, d.span⟩ :: more

/-- Types a group of declarations that refer to each other. If anything fails, no symbol of the group stays
    defined. A failure that points nowhere is one of the body that was typed last. -/
def checkGroup (home : String) (decls : List Decl) : Check (List TypedDecl) := fun c =>
  let symbols := decls.map (declared home)
  let c := symbols.foldl Context.forget c
  let group := decls.map fun d => (declared home d, Check.asBody (infer home d.body))
  match c.declareGroup InferenceError.diagnostic group [] with
  | (.error d, typed, c) =>
      (.error (d.withSpan (decls[typed.length - 1]?.map Decl.span)), c)
  | (.ok types, typed, c) =>
      match handOffAll c.store.arena home (decls.zip (types.zip typed)) with
      | .ok done => (.ok done, c)
      | .error d => (.error d, symbols.foldl Context.forget c)

/-! ## Modules -/

/-- The first declaration whose name was declared before, where `seen` are the names declared so far. -/
def duplicate? : (seen : List String) → List Decl → Option Decl
  | _, [] => none
  | seen, d :: rest =>
      if seen.contains d.name.name then some d else duplicate? (d.name.name :: seen) rest

/-- Which declaration refers to which, by their places in the module. -/
def dependencies (decls : List Decl) : Dependency.Graph Nat :=
  decls.zipIdx.foldl
    (fun g (d, i) =>
      d.body.freeNames.foldl
        (fun g name =>
          match decls.findIdx? fun other => other.name.name = name with
          | some j => g.addDependency i j
          | none => g)
        (g.addEntry i))
    {}

/-- Types groups of declarations, given by their places, in order. -/
def checkGroups (home : String) (decls : List Decl) :
    List (List Nat) → Check (List (Nat × TypedDecl))
  | [] => return []
  | group :: rest => do
      let members := group.filterMap fun i => decls[i]?.map fun d => (i, d)
      let typed ← checkGroup home (members.map Prod.snd)
      let more ← checkGroups home decls rest
      return (members.map Prod.fst).zip typed ++ more

/-- Types all declarations of a module. -/
def checkProgram (p : Program) : Check TypedProgram := do
  modify fun c => c.addModule p.home
  match duplicate? [] p.decls with
  | some d =>
      throw (Diagnostic.errorAt ("duplicate declaration `" ++ d.name.name ++ "`") d.name.span)
  | none =>
      let typed ← checkGroups p.home p.decls (dependencies p.decls).groups
      return ⟨p.home, (List.range p.decls.length).filterMap fun i => typed.lookup i⟩

/-! ## Expressions -/

/-- The name under which the latest expression is known. -/
def latest : String := "it"

/-- Types an expression on its own, and declares it as the latest one. -/
def checkExpr (e : Expr) : Check TypedDecl := do
  let home := (← get).home
  let body ← infer home e
  let c ← get
  let t := c.expose body.type
  let body ← (body.handOff c.store.arena t : Except Diagnostic TypedExpr)
  let symbol := Locator.declaration home latest
  set ((c.forget symbol).define symbol t)
  return ⟨symbol, t, body, e.span⟩

end Typing
end UnionTyping
