/-!
# `Dependency.Graph` — who waits for whom

A dependency graph has entries; each knows the entries it needs, the entries that need it, and how many of
those it needs are still unresolved. All sets are lists in ascending order without repetition.

Resolving an entry takes it out of the graph and lets everyone who needs it wait for one entry less. The
resolved key stays in the `needs` of those entries: a need counts only while its key is in the graph.
-/

namespace UnionTyping
namespace Dependency

variable {α : Type} [LT α] [DecidableLT α] [DecidableEq α]

/-! ## Ascending lists as sets -/

/-- Adds a key to an ascending list, unless it is there. -/
def insertKey (a : α) : List α → List α
  | [] => [a]
  | b :: bs => if a < b then a :: b :: bs else if a = b then b :: bs else b :: insertKey a bs

theorem mem_insertKey {a b : α} {ks : List α} : b ∈ insertKey a ks ↔ b = a ∨ b ∈ ks := by
  induction ks with
  | nil => simp [insertKey]
  | cons k rest ih =>
      rw [insertKey]
      split
      · simp
      · split
        · rename_i h
          subst h
          simp
        · simp only [List.mem_cons, ih]
          constructor
          · rintro (h | h | h) <;> simp [h]
          · rintro (h | h | h) <;> simp [h]

/-! ## The graph -/

/-- What is known of one entry. -/
structure Node (α : Type) where
  /-- The number of needed entries that are not resolved yet. -/
  pending : Nat := 0
  /-- The entries this one needs. -/
  needs : List α := []
  /-- The entries that need this one. -/
  neededBy : List α := []
deriving DecidableEq

/-- Entries in ascending order of their keys. -/
structure Graph (α : Type) where
  entries : List (α × Node α) := []
deriving DecidableEq

namespace Graph

/-- The keys of the graph, ascending. -/
def keys (g : Graph α) : List α :=
  g.entries.map Prod.fst

/-- The number of entries. -/
def size (g : Graph α) : Nat :=
  g.entries.length

/-- Whether the graph has no entries. -/
def isEmpty (g : Graph α) : Bool :=
  g.entries.isEmpty

/-- What is known of a key. -/
def get? (g : Graph α) (key : α) : Option (Node α) :=
  g.entries.lookup key

/-- Whether a key is an entry. -/
def contains (g : Graph α) (key : α) : Bool :=
  g.entries.any fun e => e.1 = key

/-- Changes what is known of a key that is an entry. -/
def modify (g : Graph α) (key : α) (f : Node α → Node α) : Graph α :=
  ⟨g.entries.map fun e => if e.1 = key then (e.1, f e.2) else e⟩

/-- Puts a new entry into its place. -/
def insertEntry (key : α) : List (α × Node α) → List (α × Node α)
  | [] => [(key, {})]
  | e :: es =>
      if key < e.1 then (key, {}) :: e :: es
      else if key = e.1 then e :: es
      else e :: insertEntry key es

/-- Adds an entry that needs nothing, unless the key is an entry already. -/
def addEntry (g : Graph α) (key : α) : Graph α :=
  ⟨insertEntry key g.entries⟩

/-- Records that `key` needs `need`; both become entries. No entry needs itself, and a need that is on
    record counts once. -/
def addDependency (g : Graph α) (key need : α) : Graph α :=
  let g := g.addEntry key
  if key = need then g
  else
    let g := g.addEntry need
    let known := match g.get? need with
      | some node => node.neededBy.contains key
      | none => true
    if known then g
    else
      let g := g.modify need fun node => { node with neededBy := insertKey key node.neededBy }
      g.modify key fun node =>
        { node with pending := node.pending + 1, needs := insertKey need node.needs }

/-- Takes an entry out of the graph; whoever needs it waits for one entry less. -/
def resolve (g : Graph α) (key : α) : Graph α :=
  match g.get? key with
  | none => g
  | some node =>
      node.neededBy.foldl (fun g waiting => g.modify waiting fun n => { n with pending := n.pending - 1 })
        ⟨g.entries.filter fun e => e.1 ≠ key⟩

/-- The keys that wait for nothing, ascending. -/
def ready (g : Graph α) : List α :=
  (g.entries.filter fun e => e.2.pending = 0).map Prod.fst

/-- Resolves every entry that waits for nothing, and gives their keys. -/
def popReady (g : Graph α) : List α × Graph α :=
  (g.ready, g.ready.foldl resolve g)

end Graph
end Dependency
end UnionTyping
