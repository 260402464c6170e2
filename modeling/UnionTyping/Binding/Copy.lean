import UnionTyping.Binding.Exposure

/-!
# `Binding.Copy` — fresh instances of types

A copy of a type replaces its generic variables, those that are not pinned, by fresh ones. Bindings are
followed on the way. One renaming is kept for a whole series of copies, so that a variable that occurs
several times becomes the same fresh variable everywhere.
-/

namespace UnionTyping

/-- The arena and the renaming made so far, by variable number. -/
structure Copying where
  arena : Arena
  counterparts : List (Nat × TyVar) := []

namespace Copying

/-- The copy of an unbound variable: itself if pinned, otherwise its fresh counterpart. -/
def rename (pinned : List Nat) (v : TyVar) : StateM Copying Ty := do
  if pinned.contains v.id then return .var v
  let c ← get
  match c.counterparts.lookup v.id with
  | some w => return .var w
  | none =>
      let (w, arena) := c.arena.fresh
      set (⟨arena, (v.id, w) :: c.counterparts⟩ : Copying)
      return .var w

/-- The copy of a type, along paths of at most `hops` bindings. -/
def copyWithin (pinned : List Nat) : (hops : Nat) → Ty → StateM Copying Ty
  | 0, t => t.substM (rename pinned)
  | hops + 1, t => t.substM fun v => do
      match (← get).arena.binding? v.id with
      | some b => copyWithin pinned hops b
      | none => rename pinned v

/-- The copy of a type. -/
def copy (pinned : List Nat) (t : Ty) : StateM Copying Ty := do
  copyWithin pinned (← get).arena.size t

/-- The copies of several types under one renaming, from left to right. -/
def copyAll (pinned : List Nat) : List Ty → StateM Copying (List Ty)
  | [] => return []
  | t :: ts => do return (← copy pinned t) :: (← copyAll pinned ts)

end Copying
end UnionTyping
