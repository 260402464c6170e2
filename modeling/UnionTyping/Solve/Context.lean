import UnionTyping.Scope.Environment
import UnionTyping.Solve.Apply

/-!
# `Solve.Context` — the state of one compilation

A context knows the module that is being typed, the variables and the journal, the type definitions, the
symbols in scope and the modules that qualified names may refer to.
-/

namespace UnionTyping

/-- The state of one compilation. -/
structure Context where
  /-- The module whose declarations are being typed. -/
  home : String
  store : Store := {}
  definitions : Definitions := {}
  environment : Environment := {}
  /-- The modules that are loaded. -/
  modules : List String := []

namespace Context

/-! ## Variables and types -/

/-- A new unbound variable, as a type. -/
def fresh (c : Context) : Ty × Context :=
  let (t, store) := c.store.fresh
  (t, { c with store })

/-- The type with all bound variables replaced. -/
def expose (c : Context) (t : Ty) : Ty :=
  c.store.arena.expose t

/-- The alternatives that a type stands for. -/
def decompose (c : Context) (t : Ty) : List Ty :=
  c.store.arena.decompose t

/-- Reports a step. -/
def note (c : Context) (level : LogLevel) (message : Unit → String) : Context :=
  { c with store := c.store.note level message }

/-- Unifies two types. -/
def unify (c : Context) (left right : Ty) : Verdict × Context :=
  let (verdict, store) := c.store.unify c.definitions left right
  (verdict, { c with store })

/-- Unifies two types; a failure names both. -/
def expect (c : Context) (expected found : Ty) : Except InferenceError Unit × Context :=
  match c.unify expected found with
  | (.unified, c) => (.ok (), c)
  | (.mismatch, c) => (.error (.mismatch (c.expose expected) (c.expose found)), c)
  | (.endless, c) => (.error (.endless (c.expose expected) (c.expose found)), c)

/-- The type of applying a function to an argument. -/
def apply (c : Context) (function argument : Ty) : Except InferenceError Ty × Context :=
  let (result, store) := c.store.apply c.definitions function argument
  (result, { c with store })

/-! ## Modules and symbols -/

/-- Makes a module's declarations reachable by qualified names. -/
def addModule (c : Context) (name : String) : Context :=
  if c.modules.contains name then c else { c with modules := name :: c.modules }

/-- Whether a module is loaded. -/
def hasModule (c : Context) (name : String) : Bool :=
  c.modules.contains name

/-- Adds a candidate type for a symbol in the innermost scope. -/
def define (c : Context) (l : Locator) (t : Ty) : Context :=
  { c with environment := c.environment.define l t }

/-- Removes one candidate of a symbol. -/
def undefine (c : Context) (l : Locator) (t : Ty) : Context :=
  { c with environment := c.environment.undefine l t }

/-- Removes a symbol from every scope. -/
def forget (c : Context) (l : Locator) : Context :=
  { c with environment := c.environment.forget l }

/-- Opens a scope inside. -/
def enter (c : Context) : Context :=
  { c with environment := c.environment.enter }

/-- Leaves the innermost scope. -/
def leave (c : Context) : Context :=
  { c with environment := c.environment.leave }

/-- Pins a type in the innermost scope. -/
def pin (c : Context) (t : Ty) : Context :=
  { c with environment := c.environment.pin t }

/-- Releases a pinned type; one that was never pinned is reported. -/
def unpin (c : Context) (t : Ty) : Context :=
  match c.environment.unpin? t with
  | some environment => { c with environment }
  | none =>
      let warning := "generify of a type that was never specialized: " ++ t.text
      { c with store := { c.store with journal := c.store.journal.warn warning } }

/-- The type of a symbol, with its generic variables replaced by fresh ones. -/
def typeOf (c : Context) (l : Locator) : Except InferenceError Ty × Context :=
  let loaded := match l with
    | .declaration home _ => c.hasModule home
    | .variable _ => true
  if loaded then
    match c.environment.typeOf c.store.arena l with
    | (some t, arena) => (.ok t, { c with store := { c.store with arena } })
    | (none, arena) => (.error (.undefined l), { c with store := { c.store with arena } })
  else
    match l with
    | .declaration home _ => (.error (.unresolved home "no such module is loaded"), c)
    | .variable _ => (.error (.undefined l), c)

/-! ## The journal -/

/-- The records kept so far, and the context without them. -/
def takeRecords (c : Context) : List LogRecord × Context :=
  (c.store.journal.records.toList,
    { c with store := { c.store with journal := { c.store.journal with records := #[] } } })

end Context
end UnionTyping
