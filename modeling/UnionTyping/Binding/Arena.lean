import UnionTyping.Ty.Display

/-!
# `Binding.Arena` — type variables and what they are bound to

The arena hands out variables and keeps what each of them is bound to. A variable is bound at most once.
The trail lists the bound variables, the latest first, so that what was bound since a snapshot can be undone
by `rollback`. Variables themselves are never taken back, hence a number names one variable for good.
-/

namespace UnionTyping

/-- What the arena keeps of one variable. -/
structure Cell where
  name : String
  binding : Option Ty := none
deriving DecidableEq

/-- The variables, by number, and the trail of bound ones. -/
structure Arena where
  cells : Array Cell := #[]
  /-- The bound variables, the latest first. -/
  trail : List Nat := []
deriving DecidableEq

/-- A moment to which bindings can be undone: the length of the trail then. -/
structure Snapshot where
  depth : Nat
deriving DecidableEq

/-- Why a variable was not bound. -/
inductive BindError where
  | unknown (id : Nat)
  | bound (name : String) (existing refused : Ty)
deriving DecidableEq

/-- The refusal in words. -/
def BindError.message : BindError → String
  | .unknown id => "bind of unknown variable " ++ toString id
  | .bound name existing refused =>
      "ignoring re-binding of '" ++ name ++ " (bound to `" ++ existing.text ++ "`) to `"
        ++ refused.text ++ "`"

namespace Arena

/-! ## Variables -/

/-- The number of variables. -/
def size (a : Arena) : Nat :=
  a.cells.size

/-- A new unbound variable with a display name. -/
def freshNamed (a : Arena) (name : String) : TyVar × Arena :=
  (⟨a.size, name⟩, { a with cells := a.cells.push ⟨name, none⟩ })

/-- A new unbound variable, named after its number. -/
def fresh (a : Arena) : TyVar × Arena :=
  a.freshNamed ("t" ++ toString a.size)

/-- The display name of a variable. -/
def name? (a : Arena) (id : Nat) : Option String :=
  a.cells[id]?.map Cell.name

/-- What a variable is bound to. -/
def binding? (a : Arena) (id : Nat) : Option Ty :=
  a.cells[id]?.bind Cell.binding

/-- Whether a variable is bound. -/
def isBound (a : Arena) (id : Nat) : Bool :=
  (a.binding? id).isSome

/-- The number of unbound variables. -/
def unboundCount (a : Arena) : Nat :=
  a.cells.countP fun c => c.binding.isNone

@[simp] theorem size_freshNamed (a : Arena) (name : String) :
    (a.freshNamed name).2.size = a.size + 1 := by
  simp [freshNamed, size]

@[simp] theorem size_fresh (a : Arena) : a.fresh.2.size = a.size + 1 :=
  a.size_freshNamed _

/-- A new variable is unbound, and no other changes. -/
@[simp] theorem binding?_freshNamed (a : Arena) (name : String) (id : Nat) :
    (a.freshNamed name).2.binding? id = a.binding? id := by
  simp only [freshNamed, binding?, Array.getElem?_push]
  by_cases h : id = a.cells.size
  · simp [h]
  · simp [h]

@[simp] theorem binding?_fresh (a : Arena) (id : Nat) : a.fresh.2.binding? id = a.binding? id :=
  a.binding?_freshNamed _ id

/-! ## Binding and undoing -/

/-- Binds an unbound variable. -/
def bind? (a : Arena) (id : Nat) (t : Ty) : Except BindError Arena :=
  match a.cells[id]? with
  | none => .error (.unknown id)
  | some ⟨name, some existing⟩ => .error (.bound name existing t)
  | some ⟨_, none⟩ =>
      .ok ⟨a.cells.modify id fun c => { c with binding := some t }, id :: a.trail⟩

/-- A variable is bound only if it is unbound before, and then it alone changes. -/
theorem binding?_bind {a b : Arena} {id : Nat} {t : Ty} (h : a.bind? id t = .ok b) (other : Nat) :
    b.binding? other = if other = id then some t else a.binding? other := by
  unfold bind? at h
  split at h
  · cases h
  · cases h
  · rename_i name hcell
    injection h with h
    subst h
    simp only [binding?, Array.getElem?_modify]
    by_cases e : id = other
    · subst e
      simp [hcell]
    · simp [e, Ne.symm e]

theorem trail_bind {a b : Arena} {id : Nat} {t : Ty} (h : a.bind? id t = .ok b) :
    b.trail = id :: a.trail := by
  unfold bind? at h
  split at h
  · cases h
  · cases h
  · injection h with h
    subst h
    rfl

/-- The present moment. -/
def snapshot (a : Arena) : Snapshot :=
  ⟨a.trail.length⟩

/-- The arena with a variable unbound; its trail stays. -/
def unbind (cells : Array Cell) (id : Nat) : Array Cell :=
  cells.modify id fun c => { c with binding := none }

/-- Undoes every binding made since the snapshot. -/
def rollback (a : Arena) (s : Snapshot) : Arena :=
  let surplus := a.trail.length - s.depth
  ⟨(a.trail.take surplus).foldl unbind a.cells, a.trail.drop surplus⟩

/-- Undoing what was bound since now changes nothing. -/
@[simp] theorem rollback_snapshot (a : Arena) : a.rollback a.snapshot = a := by
  simp [rollback, snapshot]

/-- The variables bound since the snapshot, the earliest first. -/
def boundSince (a : Arena) (s : Snapshot) : List Nat :=
  (a.trail.take (a.trail.length - s.depth)).reverse

/-- Whether the trail is as long as it was at the snapshot. -/
def unchangedSince (a : Arena) (s : Snapshot) : Bool :=
  a.trail.length == s.depth

/-- The bound variables with their bindings, by number. -/
def bindings (a : Arena) : List (Nat × Ty) :=
  (List.range a.size).filterMap fun id => (a.binding? id).map fun t => (id, t)

end Arena
end UnionTyping
