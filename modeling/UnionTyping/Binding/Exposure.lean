import UnionTyping.Binding.Arena
import UnionTyping.Ty.Definition

/-!
# `Binding.Exposure` — types seen through the bindings of their variables

`expose` replaces bound variables by what they are bound to, all the way down, and leaves unions in normal
form. Where no variable is bound to a type that contains it, a path through bindings meets every variable at
most once, so following at most as many bindings as there are variables follows them all.

The questions asked of types are asked of their exposed forms: which alternatives they have, which variables
are free in them, whether one occurs in another, and whether two are equivalent, which means equal up to the
order of union members and the display names of variables.
-/

namespace UnionTyping
namespace Ty

/-! ## Equivalence of exposed types -/

mutual
/-- Equality up to the order of union members and the names of variables. -/
def equiv : Ty → Ty → Bool
  | .union xs, .union ys => decide (xs.length = ys.length) && equivMembers xs ys
  | .simple a, .simple b => decide (a = b)
  | .var v, .var w => decide (v.id = w.id)
  | .func a r, .func b t => equiv a b && equiv r t
  | .record n as fs, .record m bs gs => decide (n = m) && equivList as bs && equivFields fs gs
  | .algebraic n as os, .algebraic m bs ps => decide (n = m) && equivList as bs && equivList os ps
  | .recursive n as, .recursive m bs => decide (n = m) && equivList as bs
  | _, _ => false
termination_by structural t => t

/-- Equivalence of lists, place by place. -/
def equivList : List Ty → List Ty → Bool
  | [], [] => true
  | t :: ts, u :: us => equiv t u && equivList ts us
  | _, _ => false
termination_by structural ts => ts

/-- Equivalence of fields, place by place. -/
def equivFields : List (String × Ty) → List (String × Ty) → Bool
  | [], [] => true
  | (l, t) :: fs, (k, u) :: gs => decide (l = k) && equiv t u && equivFields fs gs
  | _, _ => false
termination_by structural fs => fs

/-- Whether each of the first members is equivalent to one of the second. -/
def equivMembers : List Ty → List Ty → Bool
  | [], _ => true
  | x :: xs, ys => ys.any (fun y => equiv x y) && equivMembers xs ys
termination_by structural xs => xs
end

/-- Whether a type is the other one or a part of it. -/
def occursIn (t other : Ty) : Bool :=
  other.subterms.contains t

end Ty

namespace Arena

/-! ## Following bindings -/

/-- Follows at most `hops` bindings from a variable at the top. -/
def followWithin (a : Arena) : (hops : Nat) → Ty → Ty
  | 0, t => t
  | hops + 1, .var v =>
      match a.binding? v.id with
      | some t => followWithin a hops t
      | none => .var v
  | _ + 1, t => t

/-- Follows the bindings of a variable at the top. -/
def follow (a : Arena) (t : Ty) : Ty :=
  a.followWithin a.size t

/-- Replaces bound variables along paths of at most `hops` bindings. -/
def exposeWithin (a : Arena) : (hops : Nat) → Ty → Ty
  | 0, t => t.subst .var
  | hops + 1, t => t.subst fun v =>
      match a.binding? v.id with
      | some b => exposeWithin a hops b
      | none => .var v

/-- The type with all bound variables replaced and all unions in normal form. -/
def expose (a : Arena) (t : Ty) : Ty :=
  a.exposeWithin a.size t

/-- The number of nodes of a type, seen through at most `hops` bindings on a path. -/
def weightWithin (a : Arena) : (hops : Nat) → Ty → Nat
  | 0, t => t.weigh fun _ => 1
  | hops + 1, t => t.weigh fun v =>
      match a.binding? v.id with
      | some b => 1 + weightWithin a hops b
      | none => 1

/-- The number of nodes of a type as seen through bindings. Unions are counted as they stand. -/
def weight (a : Arena) (t : Ty) : Nat :=
  a.weightWithin a.size t

/-! ## Questions about exposed types -/

/-- The alternatives that a type stands for: the members of a union, the options of a sum with its
    placeholders unrolled, or the type itself. -/
def decompose (a : Arena) (t : Ty) : List Ty :=
  match a.expose t with
  | .union members => members
  | .algebraic n args options => options.map fun o => o.unroll (.algebraic n args options)
  | t => [t]

/-- The free variables of a type, by first appearance. -/
def freeVars (a : Arena) (t : Ty) : List TyVar :=
  (a.expose t).vars.eraseDups

/-- Whether one type is the other or a part of it. -/
def occursIn (a : Arena) (t other : Ty) : Bool :=
  (a.expose t).occursIn (a.expose other)

/-- Whether a variable is a proper part of a type. -/
def occursWithin (a : Arena) (v : TyVar) (t : Ty) : Bool :=
  (a.expose t).children.any fun c => (Ty.var v).occursIn c

/-- Whether two types are equivalent. -/
def equivalent (a : Arena) (t u : Ty) : Bool :=
  (a.expose t).equiv (a.expose u)

/-! ## Types as text -/

/-- The pieces of the exposed type, under its variables' own names. -/
def pieces (a : Arena) (t : Ty) : Styled :=
  (a.expose t).pieces TyVar.name

/-- The pieces of the exposed type, with its free variables called `a`, `b` and so on by first
    appearance. -/
def generalized (a : Arena) (t : Ty) : Styled :=
  (a.expose t).pieces (Ty.letterOf (Ty.letters (a.freeVars t)))

end Arena

/-- The text of a type on its own, with its variables called `a`, `b` and so on. -/
def Ty.generalizedText (t : Ty) : String :=
  (Arena.generalized {} t).plain

end UnionTyping
