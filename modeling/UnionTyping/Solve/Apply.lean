import UnionTyping.Solve.Error
import UnionTyping.Solve.Unify

/-!
# `Solve.Apply` — applying overloaded functions

A function may have several alternatives, and so may its argument. Each alternative of the argument is tried
against every alternative of the function that no earlier one has matched, and the result is the union of
the results of all matches.

An argument that is an unbound variable is first split into as many fresh variables as the function has
alternatives. It is then narrowed to the union of those that found a match.
-/

namespace UnionTyping
namespace Store

/-! ## Matching -/

/-- What came of matching one argument against the alternatives of a function. -/
structure Matching where
  /-- The alternatives that did not accept it. -/
  remaining : List Ty := []
  /-- The results of those that did. -/
  results : List Ty := []

/-- Matches one argument against each alternative of a function; each match keeps its bindings. No answer
    means that a comparison was given up. -/
def matchArgument (defs : Definitions) (argument : Ty) :
    List Ty → Store → Option (Matching × Store)
  | [], s => some ({}, s)
  | alternative :: rest, s => do
      let (result, s) := s.fresh
      match s.unify defs (.func argument result) alternative with
      | (.unified, s) =>
          let shown := s.arena.expose result
          let (m, s) ← matchArgument defs argument rest s
          some ({ m with results := shown :: m.results }, s)
      | (.mismatch, s) =>
          let (m, s) ← matchArgument defs argument rest s
          some ({ m with remaining := alternative :: m.remaining }, s)
      | (.endless, _) => none

/-- The arguments that found a match, and all results. -/
structure Matched where
  arguments : List Ty := []
  results : List Ty := []

/-- Matches each argument in turn against the alternatives that are left. -/
def matchArguments (defs : Definitions) :
    (arguments functions : List Ty) → Store → Option (Matched × Store)
  | [], _, s => some ({}, s)
  | argument :: rest, functions, s => do
      let (m, s) ← matchArgument defs argument functions s
      let exposed := s.arena.expose argument
      let (more, s) ← matchArguments defs rest m.remaining s
      some
        (⟨if m.results.isEmpty then more.arguments else exposed :: more.arguments,
          m.results ++ more.results⟩, s)

/-! ## Unbound arguments -/

/-- The given number of new variables. -/
def freshMany : Nat → Store → List Ty × Store
  | 0, s => ([], s)
  | n + 1, s =>
      let (t, s) := s.fresh
      let (ts, s) := freshMany n s
      (t :: ts, s)

/-- Splits an unbound argument into one fresh variable per alternative of the function, if there are
    several. -/
def splitArgument (function argument : Ty) (s : Store) : Ty × Store :=
  match s.arena.follow argument with
  | .var v =>
      let count := (s.arena.decompose function).length
      if count < 2 then (.var v, s)
      else
        let (parts, s) := freshMany count s
        ((Ty.union? parts).getD (.var v), s)
  | t => (t, s)

/-- Binds an argument that is still unbound to the union of the types that found a match. -/
def narrowArgument (argument : Ty) (matched : List Ty) (s : Store) : Store :=
  match s.arena.follow argument, Ty.union? matched with
  | .var v, some narrowed =>
      if s.arena.occursIn (.var v) narrowed then s
      else
        let s := s.note .debug fun _ => "narrowed '" ++ v.name ++ " to " ++ narrowed.text
        (s.bind v.id narrowed).2
  | _, _ => s

/-! ## Application -/

/-- The failure to apply a function, with both types as they are exposed now. -/
def inapplicable (function argument : Ty) (s : Store) : InferenceError :=
  .application (s.arena.expose function) (s.arena.expose argument)

/-- The type of applying a function to an argument. If nothing matches, every binding made along the way is
    undone. Results that have no alternative between them are refused as well, and what was bound for them
    stays. -/
def apply (defs : Definitions) (function argument : Ty) (s : Store) :
    Except InferenceError Ty × Store :=
  let start := s.arena.snapshot
  let s := s.note .trace fun _ =>
    "[app] solving: (" ++ s.shown function ++ ") (" ++ s.shown argument ++ ")"
  let (constrained, split) := splitArgument function argument s
  let arguments := (split.arena.expose constrained).alternatives
  match matchArguments defs arguments (split.arena.decompose function) split with
  | none => (.error (.endless (s.arena.expose function) (s.arena.expose argument)), split)
  | some (matched, s) =>
      if matched.results.isEmpty then
        let s := s.rollback start
        (.error (inapplicable function argument s), s)
      else
        let s := narrowArgument argument matched.arguments s
        match Ty.union? (matched.results.map s.arena.expose) with
        | some result =>
            (.ok result, s.note .debug fun _ => "application admits " ++ result.text)
        | none => (.error (inapplicable function argument s), s)

end Store
end UnionTyping
