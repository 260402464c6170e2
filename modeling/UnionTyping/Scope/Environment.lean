import UnionTyping.Binding.Copy
import UnionTyping.Scope.Locator

/-!
# `Scope.Environment` — the symbols in scope and their types

Scopes are nested. Each maps symbols to candidate types, since a symbol may be overloaded, and lists the
types that are pinned while something inside them is being typed. A local variable means the innermost scope
that has it; a declaration collects its candidates from all scopes.

Looking a symbol up copies its candidates. A variable is copied unless it is free in a pinned type, seen
through the bindings of that moment: this is what makes a declaration polymorphic once it is typed, and
keeps it monomorphic before.
-/

namespace UnionTyping

/-! ## One scope -/

/-- The symbols of one scope and its pinned types. -/
structure Scope where
  /-- Candidate types by symbol; no symbol is listed twice, and none without a candidate. -/
  symbols : List (Locator × List Ty) := []
  /-- The pinned types, the latest first. -/
  pinned : List Ty := []
deriving DecidableEq

namespace Scope

/-- The candidates of a symbol in this scope. -/
def get? (s : Scope) (l : Locator) : Option (List Ty) :=
  s.symbols.lookup l

/-- Adds a candidate, unless the symbol has it. -/
def addCandidate (l : Locator) (t : Ty) : List (Locator × List Ty) → List (Locator × List Ty)
  | [] => [(l, [t])]
  | (k, ts) :: rest =>
      if k = l then (k, if ts.contains t then ts else ts ++ [t]) :: rest
      else (k, ts) :: addCandidate l t rest

/-- Adds a candidate type for a symbol. -/
def define (s : Scope) (l : Locator) (t : Ty) : Scope :=
  { s with symbols := addCandidate l t s.symbols }

/-- Removes a symbol with all its candidates. -/
def forget (s : Scope) (l : Locator) : Scope :=
  { s with symbols := s.symbols.filter fun e => e.1 ≠ l }

/-- Removes one candidate of a symbol, and the symbol with its last one. -/
def undefine? (s : Scope) (l : Locator) (t : Ty) : Option Scope :=
  match s.get? l with
  | none => none
  | some ts =>
      if ts.contains t then
        match ts.erase t with
        | [] => some (s.forget l)
        | rest => some { s with symbols := s.symbols.map fun e => if e.1 = l then (l, rest) else e }
      else none

/-- Releases the latest pinned type that equals the given one. -/
def unpin? (s : Scope) (t : Ty) : Option Scope :=
  if s.pinned.contains t then some { s with pinned := s.pinned.erase t } else none

end Scope

/-! ## Nested scopes -/

/-- The scopes; there is always one, and the outermost is never left. -/
structure Environment where
  /-- The scope that definitions go to. -/
  innermost : Scope := {}
  /-- The scopes around it, the nearest first. -/
  outer : List Scope := []
deriving DecidableEq

namespace Environment

/-- All scopes, the innermost first. -/
def scopes (e : Environment) : List Scope :=
  e.innermost :: e.outer

/-- The number of scopes. -/
def depth (e : Environment) : Nat :=
  e.scopes.length

/-- Opens a scope inside. -/
def enter (e : Environment) : Environment :=
  ⟨{}, e.innermost :: e.outer⟩

/-- Leaves the innermost scope, unless it is the outermost too. -/
def leave? (e : Environment) : Option Environment :=
  match e.outer with
  | [] => none
  | s :: rest => some ⟨s, rest⟩

/-- Leaves the innermost scope; the outermost one stays. -/
def leave (e : Environment) : Environment :=
  e.leave?.getD e

@[simp] theorem depth_enter (e : Environment) : e.enter.depth = e.depth + 1 := rfl

/-- Leaving a scope that was just opened changes nothing. -/
@[simp] theorem leave_enter (e : Environment) : e.enter.leave = e := rfl

/-- Adds a candidate type for a symbol in the innermost scope. -/
def define (e : Environment) (l : Locator) (t : Ty) : Environment :=
  { e with innermost := e.innermost.define l t }

/-- Changes the first scope that a change applies to. -/
def changeFirst? (change : Scope → Option Scope) : List Scope → Option (List Scope)
  | [] => none
  | s :: rest =>
      match change s with
      | some s' => some (s' :: rest)
      | none => (changeFirst? change rest).map (s :: ·)

/-- Changes the innermost scope that a change applies to. -/
def changeInnermost? (e : Environment) (change : Scope → Option Scope) : Option Environment :=
  match changeFirst? change e.scopes with
  | some (s :: rest) => some ⟨s, rest⟩
  | _ => none

/-- Removes one candidate of a symbol from the innermost scope that has it. -/
def undefine? (e : Environment) (l : Locator) (t : Ty) : Option Environment :=
  e.changeInnermost? fun s => s.undefine? l t

/-- The same, where nothing happens if no scope has the candidate. -/
def undefine (e : Environment) (l : Locator) (t : Ty) : Environment :=
  (e.undefine? l t).getD e

/-- Whether any scope has the symbol. -/
def isDefined (e : Environment) (l : Locator) : Bool :=
  e.scopes.any fun s => (s.get? l).isSome

/-- Removes a symbol from every scope. -/
def forget (e : Environment) (l : Locator) : Environment :=
  ⟨e.innermost.forget l, e.outer.map (·.forget l)⟩

/-- The visible candidates of a symbol: those of the innermost scope that has the variable, or those of all
    scopes, the outermost first. -/
def candidates (e : Environment) (l : Locator) : List Ty :=
  match l with
  | .variable _ => (e.scopes.findSome? (·.get? l)).getD []
  | .declaration _ _ => (e.scopes.reverse.filterMap (·.get? l)).flatten

/-- Pins a type in the innermost scope. -/
def pin (e : Environment) (t : Ty) : Environment :=
  { e with innermost := { e.innermost with pinned := t :: e.innermost.pinned } }

/-- Releases a pinned type in the innermost scope that pins it. -/
def unpin? (e : Environment) (t : Ty) : Option Environment :=
  e.changeInnermost? fun s => s.unpin? t

/-- The pinned types of all scopes, the outermost scope first and the earliest type first in each. -/
def pinnedTypes (e : Environment) : List Ty :=
  (e.scopes.reverse.map fun s => s.pinned.reverse).flatten

/-- The numbers of the variables that must not be copied: those free in a pinned type. -/
def pinnedIds (e : Environment) (a : Arena) : List Nat :=
  (e.pinnedTypes.flatMap fun t => (a.freeVars t).map TyVar.id).eraseDups

/-- The type of a symbol: the union of fresh copies of its candidates. -/
def typeOf (e : Environment) (a : Arena) (l : Locator) : Option Ty × Arena :=
  match e.candidates l with
  | [] => (none, a)
  | candidates =>
      let (copies, c) := (Copying.copyAll (e.pinnedIds a) candidates).run { arena := a }
      (Ty.union? (copies.map c.arena.expose), c.arena)

/-- The symbols of a scope by their text. -/
def sortedSymbols (s : Scope) : List Locator :=
  (s.symbols.map Prod.fst).mergeSort fun l k => decide (l.text ≤ k.text)

/-- All symbols, those of outer scopes first, by their text within each scope. -/
def locators (e : Environment) : List Locator :=
  (e.scopes.reverse.flatMap sortedSymbols).eraseDups

end Environment
end UnionTyping
