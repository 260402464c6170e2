import UnionTyping.Binding.Copy
import UnionTyping.Solve.Journal

/-!
# `Solve.Store` — the state that unification works on

Unification reads and binds variables and reports what it does, and it touches nothing else: the symbols in
scope and the type definitions are not part of this state.
-/

namespace UnionTyping

/-- The variables and the journal. -/
structure Store where
  arena : Arena := {}
  journal : Journal := {}
deriving DecidableEq

namespace Store

/-- Reports a step. -/
def note (s : Store) (level : LogLevel) (message : Unit → String) : Store :=
  { s with journal := s.journal.note level message }

/-- A new unbound variable, as a type. -/
def fresh (s : Store) : Ty × Store :=
  let (v, arena) := s.arena.fresh
  (.var v, { s with arena })

/-- Binds a variable. A refusal is reported and changes nothing else. -/
def bind (s : Store) (id : Nat) (t : Ty) : Bool × Store :=
  match s.arena.bind? id t with
  | .ok arena => (true, { s with arena })
  | .error e => (false, { s with journal := s.journal.warn e.message })

/-- Undoes every binding made since the snapshot. -/
def rollback (s : Store) (mark : Snapshot) : Store :=
  { s with arena := s.arena.rollback mark }

/-- The type as it is shown in reports. -/
def shown (s : Store) (t : Ty) : String :=
  (s.arena.pieces t).painted

end Store
end UnionTyping
