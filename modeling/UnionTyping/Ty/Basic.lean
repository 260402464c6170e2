/-!
# `Ty.Basic` — the types of the language

Types are simple names, curried functions, records with ordered fields, named sums (`algebraic`),
placeholders that stand for an enclosing named type (`recursive`), unions of types that hold at the same
time, and variables. A variable is known by its number; its name is for display.

A union is in **normal form** when it has at least two members, no two of them equal and none of them a
union. `union?` builds normal forms: it flattens member unions, drops repetitions, lets a single member
stand for itself, and gives no type at all for no members. `subst` replaces variables and brings every
union it rebuilds back into normal form.
-/

namespace UnionTyping

/-! ## Types -/

/-- A type variable. Two variables are equal if both number and name are. -/
structure TyVar where
  id : Nat
  name : String
deriving DecidableEq

/-- The types. -/
inductive Ty where
  /-- A nominal leaf type, such as `Integer`. -/
  | simple (name : String)
  /-- A function of one argument. -/
  | func (argument result : Ty)
  /-- A product with named fields in order. -/
  | record (name : String) (arguments : List Ty) (fields : List (String × Ty))
  /-- A named sum of constructor types. -/
  | algebraic (name : String) (arguments options : List Ty)
  /-- Stands for the enclosing record or sum of that name. -/
  | recursive (name : String) (arguments : List Ty)
  /-- A choice among types that hold at the same time. -/
  | union (members : List Ty)
  | var (v : TyVar)

namespace Ty

/-! ## Equality -/

mutual
/-- Decides equality of types. -/
def beq : Ty → Ty → Bool
  | .simple a, .simple b => decide (a = b)
  | .func a r, .func b t => beq a b && beq r t
  | .record n as fs, .record m bs gs => decide (n = m) && beqList as bs && beqFields fs gs
  | .algebraic n as os, .algebraic m bs ps => decide (n = m) && beqList as bs && beqList os ps
  | .recursive n as, .recursive m bs => decide (n = m) && beqList as bs
  | .union ms, .union ns => beqList ms ns
  | .var v, .var w => decide (v = w)
  | _, _ => false

/-- Decides equality of lists of types. -/
def beqList : List Ty → List Ty → Bool
  | [], [] => true
  | t :: ts, u :: us => beq t u && beqList ts us
  | _, _ => false

/-- Decides equality of lists of fields. -/
def beqFields : List (String × Ty) → List (String × Ty) → Bool
  | [], [] => true
  | (l, t) :: fs, (k, u) :: gs => decide (l = k) && beq t u && beqFields fs gs
  | _, _ => false
end

mutual
theorem beq_iff : ∀ t u : Ty, beq t u = true ↔ t = u
  | .simple _, u => by cases u <;> simp [beq]
  | .func a r, u => by cases u <;> simp [beq, beq_iff a, beq_iff r]
  | .record _ as fs, u => by
      cases u <;> simp [beq, beqList_iff as, beqFields_iff fs, and_assoc]
  | .algebraic _ as os, u => by
      cases u <;> simp [beq, beqList_iff as, beqList_iff os, and_assoc]
  | .recursive _ as, u => by cases u <;> simp [beq, beqList_iff as]
  | .union ms, u => by cases u <;> simp [beq, beqList_iff ms]
  | .var _, u => by cases u <;> simp [beq]

theorem beqList_iff : ∀ ts us : List Ty, beqList ts us = true ↔ ts = us
  | [], us => by cases us <;> simp [beqList]
  | t :: ts, us => by cases us <;> simp [beqList, beq_iff t, beqList_iff ts]

theorem beqFields_iff : ∀ fs gs : List (String × Ty), beqFields fs gs = true ↔ fs = gs
  | [], gs => by cases gs <;> simp [beqFields]
  | (l, t) :: fs, gs => by
      cases gs with
      | nil => simp [beqFields]
      | cons g gs => obtain ⟨k, u⟩ := g; simp [beqFields, beq_iff t, beqFields_iff fs, and_assoc]
end

instance : DecidableEq Ty := fun t u => decidable_of_iff (beq t u = true) (beq_iff t u)

/-! ## Parts -/

/-- The truth values. -/
def boolean : Ty := .simple "Boolean"

/-- The whole numbers. -/
def integer : Ty := .simple "Integer"

/-- The floating-point numbers. -/
def double : Ty := .simple "Double"

/-- The texts. -/
def string : Ty := .simple "String"

/-- The curried function `a₁ -> a₂ -> … -> result`. -/
def funcs (arguments : List Ty) (result : Ty) : Ty :=
  arguments.foldr .func result

/-- The nominal name of a type, if it has one. -/
def name? : Ty → Option String
  | .simple n => some n
  | .record n _ _ => some n
  | .algebraic n _ _ => some n
  | .recursive n _ => some n
  | _ => none

/-- The type arguments of a named type. -/
def arguments : Ty → List Ty
  | .record _ args _ => args
  | .algebraic _ args _ => args
  | .recursive _ args => args
  | _ => []

/-- Whether the type is a function. -/
def isFunc : Ty → Bool
  | .func _ _ => true
  | _ => false

/-- Whether the type is a union. -/
def isUnion : Ty → Bool
  | .union _ => true
  | _ => false

/-- The immediate parts of a type, from left to right. -/
def children : Ty → List Ty
  | .simple _ => []
  | .func a r => [a, r]
  | .record _ args fields => args ++ fields.map Prod.snd
  | .algebraic _ args options => args ++ options
  | .recursive _ args => args
  | .union members => members
  | .var _ => []

mutual
/-- The type and all its parts, each before its own parts. -/
def subterms : Ty → List Ty
  | .simple n => [.simple n]
  | .func a r => .func a r :: (subterms a ++ subterms r)
  | .record n args fields => .record n args fields :: (subtermsList args ++ subtermsFields fields)
  | .algebraic n args options =>
      .algebraic n args options :: (subtermsList args ++ subtermsList options)
  | .recursive n args => .recursive n args :: subtermsList args
  | .union members => .union members :: subtermsList members
  | .var v => [.var v]

/-- All parts of a list of types. -/
def subtermsList : List Ty → List Ty
  | [] => []
  | t :: ts => subterms t ++ subtermsList ts

/-- All parts of a list of fields. -/
def subtermsFields : List (String × Ty) → List Ty
  | [] => []
  | (_, t) :: fs => subterms t ++ subtermsFields fs
end

theorem subtermsList_eq_flatMap (ts : List Ty) : subtermsList ts = ts.flatMap subterms := by
  induction ts with
  | nil => rfl
  | cons t ts ih => rw [subtermsList, ih, List.flatMap_cons]

mutual
/-- The variables of a type from left to right, with repetitions. -/
def vars : Ty → List TyVar
  | .simple _ => []
  | .func a r => vars a ++ vars r
  | .record _ args fields => varsList args ++ varsFields fields
  | .algebraic _ args options => varsList args ++ varsList options
  | .recursive _ args => varsList args
  | .union members => varsList members
  | .var v => [v]

/-- The variables of a list of types. -/
def varsList : List Ty → List TyVar
  | [] => []
  | t :: ts => vars t ++ varsList ts

/-- The variables of a list of fields. -/
def varsFields : List (String × Ty) → List TyVar
  | [] => []
  | (_, t) :: fs => vars t ++ varsFields fs
end

theorem varsList_eq_flatMap (ts : List Ty) : varsList ts = ts.flatMap vars := by
  induction ts with
  | nil => rfl
  | cons t ts ih => rw [varsList, ih, List.flatMap_cons]

theorem varsFields_eq_flatMap (fs : List (String × Ty)) :
    varsFields fs = fs.flatMap fun e => vars e.2 := by
  induction fs with
  | nil => rfl
  | cons e fs ih => rw [varsFields, ih, List.flatMap_cons]

mutual
/-- The number of nodes of a type, where a variable counts as much as `f` says. -/
def weigh (f : TyVar → Nat) : Ty → Nat
  | .simple _ => 1
  | .func a r => 1 + weigh f a + weigh f r
  | .record _ args fields => 1 + weighList f args + weighFields f fields
  | .algebraic _ args options => 1 + weighList f args + weighList f options
  | .recursive _ args => 1 + weighList f args
  | .union members => 1 + weighList f members
  | .var v => f v

/-- The number of nodes of a list of types. -/
def weighList (f : TyVar → Nat) : List Ty → Nat
  | [] => 0
  | t :: ts => weigh f t + weighList f ts

/-- The number of nodes of a list of fields. -/
def weighFields (f : TyVar → Nat) : List (String × Ty) → Nat
  | [] => 0
  | (_, t) :: fs => weigh f t + weighFields f fs
end

/-! ## Unions in normal form -/

/-- The alternatives of a type: the members of a union, or the type itself. -/
def alternatives : Ty → List Ty
  | .union members => members
  | t => [t]

/-- The union of the given types in normal form; there is none of no types. -/
def union? (members : List Ty) : Option Ty :=
  match (members.flatMap alternatives).eraseDups with
  | [] => none
  | [t] => some t
  | ts => some (.union ts)

/-- The union of the given types in normal form, or a union without alternatives if there are none. -/
def join (members : List Ty) : Ty :=
  (union? members).getD (.union members)

/-! ## Substitution -/

mutual
/-- The type with every variable replaced, and every union back in normal form. -/
def subst (f : TyVar → Ty) : Ty → Ty
  | .simple n => .simple n
  | .func a r => .func (subst f a) (subst f r)
  | .record n args fields => .record n (substList f args) (substFields f fields)
  | .algebraic n args options => .algebraic n (substList f args) (substList f options)
  | .recursive n args => .recursive n (substList f args)
  | .union members => join (substList f members)
  | .var v => f v

/-- Replaces the variables of a list of types. -/
def substList (f : TyVar → Ty) : List Ty → List Ty
  | [] => []
  | t :: ts => subst f t :: substList f ts

/-- Replaces the variables of a list of fields. -/
def substFields (f : TyVar → Ty) : List (String × Ty) → List (String × Ty)
  | [] => []
  | (l, t) :: fs => (l, subst f t) :: substFields f fs
end

theorem substList_eq_map (f : TyVar → Ty) (ts : List Ty) : substList f ts = ts.map (subst f) := by
  induction ts with
  | nil => rfl
  | cons t ts ih => rw [substList, ih, List.map_cons]

theorem substFields_eq_map (f : TyVar → Ty) (fs : List (String × Ty)) :
    substFields f fs = fs.map fun e => (e.1, subst f e.2) := by
  induction fs with
  | nil => rfl
  | cons e fs ih => rw [substFields, ih, List.map_cons]

mutual
/-- The same where the replacements are computed with an effect, from left to right. -/
def substM {m : Type → Type} [Monad m] (f : TyVar → m Ty) : Ty → m Ty
  | .simple n => pure (.simple n)
  | .func a r => do return .func (← substM f a) (← substM f r)
  | .record n args fields => do return .record n (← substListM f args) (← substFieldsM f fields)
  | .algebraic n args options => do return .algebraic n (← substListM f args) (← substListM f options)
  | .recursive n args => do return .recursive n (← substListM f args)
  | .union members => do return join (← substListM f members)
  | .var v => f v

/-- Replaces the variables of a list of types. -/
def substListM {m : Type → Type} [Monad m] (f : TyVar → m Ty) : List Ty → m (List Ty)
  | [] => pure []
  | t :: ts => do return (← substM f t) :: (← substListM f ts)

/-- Replaces the variables of a list of fields. -/
def substFieldsM {m : Type → Type} [Monad m] (f : TyVar → m Ty) :
    List (String × Ty) → m (List (String × Ty))
  | [] => pure []
  | (l, t) :: fs => do return (l, ← substM f t) :: (← substFieldsM f fs)
end

end Ty

/-- Types for variable numbers; where a number is listed twice, the later entry counts. -/
abbrev Assignment := List (Nat × Ty)

/-- The type that is assigned to a variable number. -/
def Assignment.get? (σ : Assignment) (id : Nat) : Option Ty :=
  σ.reverse.lookup id

/-- Replaces the variables that a type is assigned to. -/
def Ty.assign (t : Ty) (σ : Assignment) : Ty :=
  t.subst fun v => (σ.get? v.id).getD (.var v)

end UnionTyping
