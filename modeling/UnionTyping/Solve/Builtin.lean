import UnionTyping.Solve.Context

/-!
# `Solve.Builtin` — the operators every module knows

The operators are declarations of the module `snacks.lang`. Overloads of one operator are candidates of one
symbol. The two comparisons for equality have a variable each, which every use copies.
-/

namespace UnionTyping
namespace Builtin

/-- The module of the operators. -/
def home : String := "snacks.lang"

/-- The symbol of an operator. -/
def locator (name : String) : Locator :=
  .declaration home name

/-- The operand and result types of the arithmetic operators. -/
def numeric : List (Ty × Ty × Ty) :=
  [(.integer, .integer, .integer), (.integer, .double, .double),
   (.double, .integer, .double), (.double, .double, .double)]

/-- The same operands with a truth value as the result. -/
def comparing : List (Ty × Ty × Ty) :=
  numeric.map (fun (l, r, _) => (l, r, .boolean)) ++ [(.string, .string, .boolean)]

/-- What can be appended to a text. -/
def appending : List (Ty × Ty × Ty) :=
  [(.string, .string, .string), (.string, .integer, .string), (.string, .double, .string)]

/-- Defines a type of an operator. -/
def define (name : String) (t : Ty) (c : Context) : Context :=
  c.define (locator name) t

/-- Defines the overloads of an operator with two operands. -/
def defineBinary (name : String) (overloads : List (Ty × Ty × Ty)) (c : Context) : Context :=
  overloads.foldl (fun c (l, r, result) => define name (.funcs [l, r] result) c) c

/-- Defines a comparison for equality, of any two values of one type. -/
def defineEquality (name : String) (c : Context) : Context :=
  let (a, c) := c.fresh
  defineBinary name [(a, a, .boolean)] c

/-- Defines an arithmetic sign. -/
def defineSign (name : String) (c : Context) : Context :=
  define name (.func .double .double) (define name (.func .integer .integer) c)

/-- Defines all operators. -/
def seed (c : Context) : Context :=
  let c := defineBinary "+" (numeric ++ appending) c
  let c := ["-", "*", "/", "%"].foldl (fun c op => defineBinary op numeric c) c
  let c := ["<", "<=", ">", ">="].foldl (fun c op => defineBinary op comparing c) c
  let c := ["==", "!="].foldl (fun c op => defineEquality op c) c
  let c := ["and", "or"].foldl
    (fun c op => defineBinary op [(.boolean, .boolean, .boolean)] c) c
  let c := define "not" (.func .boolean .boolean) c
  ["unary+", "unary-"].foldl (fun c op => defineSign op c) c

end Builtin

/-- A context for a module, with the operators defined. -/
def Context.new (home : String) (tracing : Bool) : Context :=
  Builtin.seed
    { home, store := { journal := { tracing } }, modules := [home, Builtin.home].eraseDups }

end UnionTyping
