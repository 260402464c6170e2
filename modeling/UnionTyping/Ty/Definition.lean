import UnionTyping.Ty.Basic

/-!
# `Ty.Definition` — named types, their parameters and their placeholders

The type arguments of a record or sum are its parameters as long as they are variables. `instantiate?`
replaces them by other types. A placeholder `recursive n args` inside the type named `n` stands for that
type with `args` for its parameters; `unroll` replaces the placeholders one level deep. Inside a nested
type of the same name a placeholder means the nested one, so `unroll` stops there.
-/

namespace UnionTyping
namespace Ty

/-! ## Instantiation -/

/-- The assignment of arguments to those parameters that are variables. -/
def parameters (params args : List Ty) : Assignment :=
  (params.zip args).filterMap fun
    | (.var v, t) => some (v.id, t)
    | _ => none

/-- A named type with other arguments for its parameters; none if their number is wrong. -/
def instantiate? (t : Ty) (args : List Ty) : Option Ty :=
  if t.arguments.length = args.length then
    some (if t.arguments = args then t else t.assign (parameters t.arguments args))
  else none

/-! ## Unrolling -/

mutual
/-- Replaces the placeholders named `name` by `owner` applied to their arguments. -/
def unrollNamed (name : String) (owner : Ty) : Ty → Ty
  | .simple n => .simple n
  | .func a r => .func (unrollNamed name owner a) (unrollNamed name owner r)
  | .record n args fields =>
      if n = name then .record n args fields
      else .record n (unrollList name owner args) (unrollFields name owner fields)
  | .algebraic n args options =>
      if n = name then .algebraic n args options
      else .algebraic n (unrollList name owner args) (unrollList name owner options)
  | .recursive n args =>
      if n = name then (owner.instantiate? args).getD (.recursive n args)
      else .recursive n (unrollList name owner args)
  | .union members => join (unrollList name owner members)
  | .var v => .var v

/-- Unrolls a list of types. -/
def unrollList (name : String) (owner : Ty) : List Ty → List Ty
  | [] => []
  | t :: ts => unrollNamed name owner t :: unrollList name owner ts

/-- Unrolls a list of fields. -/
def unrollFields (name : String) (owner : Ty) : List (String × Ty) → List (String × Ty)
  | [] => []
  | (l, t) :: fs => (l, unrollNamed name owner t) :: unrollFields name owner fs
end

/-- The type with the placeholders that stand for `owner` replaced by it, one level deep. -/
def unroll (t owner : Ty) : Ty :=
  match owner.name? with
  | some name => unrollNamed name owner t
  | none => t

end Ty

/-! ## The registry of definitions -/

/-- Record and sum definitions by name. -/
structure Definitions where
  entries : List (String × Ty) := []
deriving DecidableEq

namespace Definitions

/-- The definition of a name. -/
def get? (d : Definitions) (name : String) : Option Ty :=
  d.entries.lookup name

/-- Whether a name is defined. -/
def contains (d : Definitions) (name : String) : Bool :=
  (d.get? name).isSome

/-- Registers a definition under its name, in place of an earlier one. -/
def insert (d : Definitions) (name : String) (t : Ty) : Definitions :=
  ⟨(name, t) :: d.entries.filter fun e => e.1 ≠ name⟩

/-- Registers a record or a sum; other types have no definition. -/
def define? (d : Definitions) (t : Ty) : Option Definitions :=
  match t with
  | .record name _ _ => some (d.insert name t)
  | .algebraic name _ _ => some (d.insert name t)
  | _ => none

/-- What a placeholder stands for, if its name is defined and takes that many arguments. -/
def expand? (d : Definitions) : Ty → Option Ty
  | .recursive name args => (d.get? name).bind (·.instantiate? args)
  | _ => none

end Definitions
end UnionTyping
