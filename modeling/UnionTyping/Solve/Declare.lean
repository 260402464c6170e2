import UnionTyping.Solve.Context

/-!
# `Solve.Declare` — declarations that may refer to themselves and to each other

Every declaration of a group gets a fresh variable as its type before any body is typed. The variables stay
pinned while the bodies are typed one after the other, so that the group is monomorphic inside itself.
Afterwards they are released, and later uses copy what is left free in them. If anything fails, none of the
group's symbols stay defined.

What else the bodies produce is kept in a value of the caller's own that is handed from body to body.
-/

namespace UnionTyping

/-- Computes the type of a declaration's body, from the context and the caller's own value. -/
abbrev Body (ε σ : Type) := σ → Context → Except ε Ty × σ × Context

namespace Context

/-- A declaration of a group with the variable that stands for its type. -/
structure Member (β : Type) where
  symbol : Locator
  type : Ty
  body : β

/-- Defines every symbol of a group as a fresh pinned variable. -/
def openGroup {β : Type} : List (Locator × β) → Context → List (Member β) × Context
  | [], c => ([], c)
  | (symbol, body) :: rest, c =>
      let (t, c) := c.fresh
      let (members, c) := openGroup rest ((c.define symbol t).pin t)
      (⟨symbol, t, body⟩ :: members, c)

/-- Types the bodies in order, each against its symbol's variable, up to the first failure. -/
def typeBodies {ε σ : Type} (wrap : InferenceError → ε) :
    List (Member (Body ε σ)) → σ → Context → Except ε Unit × σ × Context
  | [], own, c => (.ok (), own, c)
  | m :: rest, own, c =>
      let c := c.note .trace fun _ => "[decl] solving: " ++ m.symbol.text
      match m.body own c with
      | (.error e, own, c) => (.error e, own, c)
      | (.ok t, own, c) =>
          match c.expect m.type t with
          | (.error e, c) => (.error (wrap e), own, c)
          | (.ok (), c) => typeBodies wrap rest own c

/-- Removes the symbols of a group again. -/
def withdraw {β : Type} (members : List (Member β)) (c : Context) : Context :=
  members.foldl (fun c m => c.undefine m.symbol m.type) c

/-- The types found for a group, or the first symbol that is left without one. -/
def collectTypes {β : Type} : List (Member β) → Context → Except Locator (List Ty) × Context
  | [], c => (.ok [], c)
  | m :: rest, c =>
      if (c.decompose m.type).isEmpty then (.error m.symbol, c)
      else
        let t := c.expose m.type
        let c := c.note .debug fun _ => m.symbol.text ++ " : " ++ t.generalizedText
        match collectTypes rest c with
        | (.ok ts, c) => (.ok (t :: ts), c)
        | (.error symbol, c) => (.error symbol, c)

/-- Types a group of declarations that may refer to each other, and gives their types in order. -/
def declareGroup {ε σ : Type} (wrap : InferenceError → ε) (group : List (Locator × Body ε σ))
    (own : σ) (c : Context) : Except ε (List Ty) × σ × Context :=
  let (members, c) := openGroup group c
  let (outcome, own, c) := typeBodies wrap members own c
  let c := members.foldl (fun c m => c.unpin m.type) c
  match outcome with
  | .error e => (.error e, own, withdraw members c)
  | .ok () =>
      match collectTypes members c with
      | (.ok types, c) => (.ok types, own, c)
      | (.error symbol, c) =>
          (.error (wrap (.emptyDeclaration symbol)), own, withdraw members c)

/-- Types one declaration that may refer to itself. -/
def declare {ε σ : Type} (wrap : InferenceError → ε) (symbol : Locator) (body : Body ε σ)
    (own : σ) (c : Context) : Except ε Ty × σ × Context :=
  match declareGroup wrap [(symbol, body)] own c with
  | (.ok (t :: _), own, c) => (.ok t, own, c)
  | (.ok [], own, c) => (.error (wrap (.emptyDeclaration symbol)), own, c)
  | (.error e, own, c) => (.error e, own, c)

end Context
end UnionTyping
