import UnionTyping.Solve.Store

/-!
# `Solve.Unify` — making two types equal

Two types are compared part by part, and unbound variables are bound on the way. A union, or a sum against
one of its constructor types, is compared alternative by alternative, each attempt starting from the same
bindings. If one attempt needs no binding, nothing is bound. If exactly one succeeds, it is carried out. If
several do, the variables that all of them bind are bound to the union of the values found.

**How deep a comparison goes.** The parts compared are not smaller than what they are parts of as written,
since variables are looked through. But between two bindings the types, seen through bindings, shrink with
every step down; and there are only so many variables to bind. `compareWithin` therefore counts down the
unbound variables, and within each count a depth computed afresh from the types. A placeholder may unfold
into something larger than itself, for which a fixed allowance is added to the depth; a comparison that
exhausts even that is given up.
-/

namespace UnionTyping

/-! ## One step of a comparison -/

/-- Compares two types at a nesting level, and binds variables on the way. No answer means that the
    comparison was given up. -/
abbrev Comparison := (left right : Ty) → (level : Nat) → Store → Option (Bool × Store)

/-- The indentation of reports at a nesting level. -/
def indent (level : Nat) : String :=
  String.join (List.replicate level "  ")

/-- Compares the types of two lists pairwise up to the first mismatch. -/
def comparePairs (next : Comparison) (level : Nat) :
    List Ty → List Ty → Store → Option (Bool × Store)
  | l :: ls, r :: rs, s => do
      let (ok, s) ← next l r level s
      if ok then comparePairs next level ls rs s else some (false, s)
  | _, _, s => some (true, s)

/-- Compares two lists of types, which must be equally long. -/
def compareLists (next : Comparison) (level : Nat) (ls rs : List Ty) (s : Store) :
    Option (Bool × Store) :=
  if ls.length = rs.length then comparePairs next level ls rs s else some (false, s)

/-! ### Alternatives -/

/-- An alternative that succeeded, and the variables that it bound with their exposed values. -/
structure Success where
  alternative : Ty
  bindings : List (Nat × Ty)

/-- What trying the alternatives one by one has shown. -/
inductive Search where
  /-- One of them succeeded without binding anything. -/
  | settled
  /-- These succeeded, each with bindings of its own, which were undone. -/
  | found (successes : List Success)

/-- The variables bound since the snapshot, with their exposed values. -/
def Arena.bindingsSince (a : Arena) (mark : Snapshot) : List (Nat × Ty) :=
  (a.boundSince mark).filterMap fun id => (a.binding? id).map fun t => (id, a.expose t)

/-- Tries each alternative from the same bindings, up to one that needs no binding. -/
def tryAlternatives (attempt : Ty → Store → Option (Bool × Store)) :
    List Ty → Store → Option (Search × Store)
  | [], s => some (.found [], s)
  | alternative :: rest, s => do
      let mark := s.arena.snapshot
      let (ok, tried) ← attempt alternative s
      if ok && tried.arena.unchangedSince mark then some (.settled, tried)
      else
        let (search, s) ← tryAlternatives attempt rest (tried.rollback mark)
        match search with
        | .settled => some (.settled, s)
        | .found more =>
            if ok then some (.found (⟨alternative, tried.arena.bindingsSince mark⟩ :: more), s)
            else some (.found more, s)

/-- The variables that every success binds, each with the union of its values. -/
def commonBindings (first : Success) (rest : List Success) : List (Nat × Ty) :=
  first.bindings.filterMap fun (id, value) => do
    let values ← rest.mapM fun s => s.bindings.lookup id
    let t ← Ty.union? (value :: values)
    return (id, t)

/-- Binds each variable to the union of the values that the successes found for it. -/
def accrete (level count : Nat) : List (Nat × Ty) → Store → Store
  | [], s => s
  | (id, t) :: rest, s =>
      let s := s.note .trace fun _ =>
        indent level ++ "accrete: " ++ s.shown t ++ " from " ++ toString count ++ " alternatives"
      accrete level count rest (s.bind id t).2

/-- Unifies with any of the alternatives. -/
def compareAlternatives (attempt : Ty → Store → Option (Bool × Store)) (level : Nat)
    (alternatives : List Ty) (s : Store) : Option (Bool × Store) := do
  let (search, s) ← tryAlternatives attempt alternatives s
  match search with
  | .settled => some (true, s)
  | .found [] => some (false, s)
  | .found [only] => attempt only.alternative s
  | .found (first :: rest) =>
      some (true, accrete level (rest.length + 1) (commonBindings first rest) s)

/-! ### The cases -/

/-- Binds an unbound variable, unless it is a proper part of the type. -/
def bindTo (v : TyVar) (t : Ty) (s : Store) : Bool × Store :=
  if s.arena.occursWithin v t then (false, s) else s.bind v.id t

/-- The options of a sum with its placeholders unrolled. -/
def unrolledOptions (owner : Ty) (options : List Ty) : List Ty :=
  options.map (·.unroll owner)

/-- Compares two types that are not equivalent and whose variables at the top are unbound. -/
def compareCases (defs : Definitions) (next : Comparison) : Comparison := fun left right level s =>
  let deeper := level + 1
  match left, right with
  | l, .var v => some (bindTo v l s)
  | .var v, r => some (bindTo v r s)
  | l, .union members => compareAlternatives (fun t => next l t deeper) level members s
  | .union members, r => compareAlternatives (fun t => next t r deeper) level members s
  | .recursive n as, .recursive m bs =>
      if n = m then compareLists next deeper as bs s else some (false, s)
  | l, .recursive m bs =>
      match defs.expand? (.recursive m bs) with
      | some expanded => next l expanded deeper s
      | none =>
          if l.name? = some m then compareLists next deeper l.arguments bs s else some (false, s)
  | .recursive n as, r =>
      match defs.expand? (.recursive n as) with
      | some expanded => next expanded r deeper s
      | none =>
          if r.name? = some n then compareLists next deeper as r.arguments s else some (false, s)
  | .simple n, .simple m => some (decide (n = m), s)
  | .func a r, .func b t => do
      let (ok, s) ←
        if (s.arena.follow a).isFunc then next b a deeper s else next a b deeper s
      if ok then next r t deeper s else some (false, s)
  | .record n as fs, .record m bs gs => do
      if n = m ∧ fs.map Prod.fst = gs.map Prod.fst then
        let (ok, s) ← compareLists next deeper as bs s
        if ok then compareLists next deeper (fs.map Prod.snd) (gs.map Prod.snd) s
        else some (false, s)
      else some (false, s)
  | .algebraic n as os, .algebraic m bs ps => do
      if n = m then
        let (ok, s) ← compareLists next deeper as bs s
        if ok then compareLists next deeper os ps s else some (false, s)
      else some (false, s)
  | .algebraic n as os, .simple m =>
      compareAlternatives (fun t => next t (.simple m) deeper) level
        (unrolledOptions (.algebraic n as os) os) s
  | .algebraic n as os, .record m bs gs =>
      compareAlternatives (fun t => next t (.record m bs gs) deeper) level
        (unrolledOptions (.algebraic n as os) os) s
  | .simple n, .algebraic m bs ps =>
      compareAlternatives (fun t => next (.simple n) t deeper) level
        (unrolledOptions (.algebraic m bs ps) ps) s
  | .record n as fs, .algebraic m bs ps =>
      compareAlternatives (fun t => next (.record n as fs) t deeper) level
        (unrolledOptions (.algebraic m bs ps) ps) s
  | _, _ => some (false, s)

/-- One step of a comparison, which goes on with `next`. Equivalent types need no further look. -/
def compareStep (defs : Definitions) (next : Comparison) : Comparison := fun left right level s =>
  let left := s.arena.follow left
  let right := s.arena.follow right
  let s := s.note .trace fun _ =>
    indent level ++ "unify: " ++ s.shown left ++ " = " ++ s.shown right
  if s.arena.equivalent left right then some (true, s)
  else do
    let (ok, s) ← compareCases defs next left right level s
    some (ok, s.note .trace fun _ => indent level ++ "done: " ++ if ok then "ok" else "failed")

/-! ## The whole comparison -/

/-- Counts down the depth while no variable is bound; once one is, `lower` takes over. -/
def compareAt (defs : Definitions) (lower : Comparison) (unbound : Nat) : (depth : Nat) → Comparison
  | 0 => fun _ _ _ _ => none
  | depth + 1 => compareStep defs fun left right level s =>
      if s.arena.unboundCount < unbound then lower left right level s
      else compareAt defs lower unbound depth left right level s

/-- The levels of nesting allowed for placeholders that unfold. -/
def unfoldingAllowance : Nat := 65536

/-- The depth granted to the comparison of two types. -/
def Arena.depthFor (a : Arena) (left right : Ty) : Nat :=
  a.weight left + a.weight right + unfoldingAllowance

/-- Compares two types when at most so many variables are unbound. -/
def compareWithin (defs : Definitions) : (unbound : Nat) → Comparison
  | 0 => fun left right level s =>
      compareAt defs (fun _ _ _ _ => none) 0 (s.arena.depthFor left right) left right level s
  | unbound + 1 => fun left right level s =>
      compareAt defs (compareWithin defs unbound) (unbound + 1) (s.arena.depthFor left right)
        left right level s

/-- How a unification ended. -/
inductive Verdict where
  | unified
  | mismatch
  /-- The comparison was given up: the types unfold without end. -/
  | endless
deriving DecidableEq

/-- Unifies two types. Unless it succeeds, every binding made along the way is undone. -/
def Store.unify (s : Store) (defs : Definitions) (left right : Ty) : Verdict × Store :=
  match compareWithin defs s.arena.unboundCount left right 0 s with
  | some (true, after) => (.unified, after)
  | some (false, after) => (.mismatch, after.rollback s.arena.snapshot)
  | none => (.endless, s)

end UnionTyping
