import UnionTyping.Dependency.Graph

/-!
# `Dependency.Groups` — resolving a whole graph, cycles included

Entries are resolved in groups such that no group needs a later one. As long as some entries wait for
nothing they are resolved, each in a group of its own. When every entry waits for another one, there is a
cycle that needs nothing outside itself, and it is resolved as one group.
-/

namespace UnionTyping
namespace Dependency
namespace Graph

variable {α : Type} [LT α] [DecidableLT α] [DecidableEq α]

/-! ## Cycles -/

/-- The keys, together with the entries that one step along the edges leads to. -/
def expand (g : Graph α) (edges : Node α → List α) (seen : List α) : List α :=
  seen.foldl
    (fun acc key => match g.get? key with
      | some node => ((edges node).filter g.contains).foldl (fun acc next => insertKey next acc) acc
      | none => acc)
    seen

/-- The keys that at most `steps` steps along the edges lead to. -/
def closure (g : Graph α) (edges : Node α → List α) : (steps : Nat) → List α → List α
  | 0, seen => seen
  | steps + 1, seen => closure g edges steps (g.expand edges seen)

/-- The entries that a key leads to. A path needs no more steps than there are entries. -/
def reach (g : Graph α) (edges : Node α → List α) (key : α) : List α :=
  g.closure edges g.size [key]

/-- The entries that a key needs and that need it in turn, itself included. -/
def cycleOf (g : Graph α) (key : α) : List α :=
  let backward := g.reach Node.neededBy key
  (g.reach Node.needs key).filter backward.contains

/-- Whether the needs of all the given entries, as far as they are in the graph, are among them. -/
def isClosed (g : Graph α) (cycle : List α) : Bool :=
  cycle.all fun key => match g.get? key with
    | some node => (node.needs.filter g.contains).all cycle.contains
    | none => true

/-- The first cycle, by its least key, that needs nothing outside itself. -/
def nextCycle? (g : Graph α) : Option (List α) :=
  (g.keys.map g.cycleOf).find? g.isClosed

/-! ## Groups -/

/-- Resolves the graph in at most the given number of rounds; every round takes out at least one entry. -/
def groupsWithin : (rounds : Nat) → Graph α → List (List α)
  | 0, _ => []
  | rounds + 1, g =>
      match g.entries with
      | [] => []
      | _ :: _ =>
          match g.popReady with
          | ([], _) =>
              match g.nextCycle? with
              | some cycle => cycle :: groupsWithin rounds (cycle.foldl resolve g)
              | none => []
          | (ready, rest) => ready.map (fun key => [key]) ++ groupsWithin rounds rest

/-- Groups of entries such that no group needs a later one. Entries that need each other share a group,
    and every other group has a single member. -/
def groups (g : Graph α) : List (List α) :=
  groupsWithin g.size g

end Graph
end Dependency
end UnionTyping
