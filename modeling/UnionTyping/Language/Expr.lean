import UnionTyping.Number.Shortest
import UnionTyping.Source.Span
import UnionTyping.Text.Quoted

/-!
# `Language.Expr` — the expressions of the language

Expressions are literals, names, applications by juxtaposition, operators, functions of one parameter,
conditionals and local bindings. Every node carries the range of source it was read from.

The text of an expression has parentheses around everything compound, so that its structure does not depend
on precedence.
-/

namespace UnionTyping

/-! ## Parts of expressions -/

/-- A name where it is introduced. -/
structure Ident where
  name : String
  span : Span
deriving DecidableEq

/-- A name where it is used, possibly behind the module that declares it. -/
structure Path where
  home : Option String
  name : String
deriving DecidableEq

/-- The path as it is written. -/
def Path.text (p : Path) : String :=
  match p.home with
  | some home => home ++ "." ++ p.name
  | none => p.name

/-- A literal. -/
inductive Literal where
  | integer (value : Nat)
  | double (value : Binary)
  | string (value : String)
  | boolean (value : Bool)
deriving DecidableEq

/-- The literal as it is written. -/
def Literal.text : Literal → String
  | .integer n => toString n
  | .double x => x.text
  | .string s => Text.quoted s
  | .boolean true => "True"
  | .boolean false => "False"

/-- The operators between two operands. -/
inductive BinaryOp where
  | or
  | and
  | eq
  | ne
  | le
  | ge
  | lt
  | gt
  | add
  | sub
  | mul
  | div
  | rem
deriving DecidableEq

/-- The operator as it is written, which is also the name it is declared under. -/
def BinaryOp.symbol : BinaryOp → String
  | .or => "or"
  | .and => "and"
  | .eq => "=="
  | .ne => "!="
  | .le => "<="
  | .ge => ">="
  | .lt => "<"
  | .gt => ">"
  | .add => "+"
  | .sub => "-"
  | .mul => "*"
  | .div => "/"
  | .rem => "%"

/-- The operators in front of an operand. -/
inductive UnaryOp where
  | neg
  | plus
  | not
deriving DecidableEq

/-- The operator as it is written. -/
def UnaryOp.symbol : UnaryOp → String
  | .neg => "-"
  | .plus => "+"
  | .not => "not"

/-- The name the operator is declared under. Signs are kept apart from the operators between two operands
    that look like them. -/
def UnaryOp.declaredName : UnaryOp → String
  | .neg => "unary-"
  | .plus => "unary+"
  | .not => "not"

/-! ## Expressions -/

/-- An expression. -/
inductive Expr where
  | literal (span : Span) (value : Literal)
  | name (span : Span) (path : Path)
  /-- Juxtaposition, as in `f a`. -/
  | apply (span : Span) (function argument : Expr)
  | binary (span : Span) (op : BinaryOp) (left right : Expr)
  | unary (span : Span) (op : UnaryOp) (operand : Expr)
  /-- A function, as in `x -> body`. -/
  | lambda (span : Span) (param : Ident) (body : Expr)
  /-- A choice, as in `if c then a else b`. -/
  | conditional (span : Span) (condition positive negative : Expr)
  /-- A local binding, as in `let x = value in body`. -/
  | binding (span : Span) (bound : Ident) (value body : Expr)
deriving DecidableEq

namespace Expr

/-- The range of source an expression was read from. -/
def span : Expr → Span
  | .literal s _ => s
  | .name s _ => s
  | .apply s _ _ => s
  | .binary s _ _ _ => s
  | .unary s _ _ => s
  | .lambda s _ _ => s
  | .conditional s _ _ _ => s
  | .binding s _ _ _ => s

/-- The expression with another range, such as the one of the parentheses around it. -/
def withSpan (s : Span) : Expr → Expr
  | .literal _ v => .literal s v
  | .name _ p => .name s p
  | .apply _ f a => .apply s f a
  | .binary _ op l r => .binary s op l r
  | .unary _ op x => .unary s op x
  | .lambda _ p b => .lambda s p b
  | .conditional _ c a b => .conditional s c a b
  | .binding _ x v b => .binding s x v b

/-- The immediate parts of an expression, from left to right. -/
def children : Expr → List Expr
  | .literal _ _ => []
  | .name _ _ => []
  | .apply _ f a => [f, a]
  | .binary _ _ l r => [l, r]
  | .unary _ _ x => [x]
  | .lambda _ _ b => [b]
  | .conditional _ c a b => [c, a, b]
  | .binding _ _ v b => [v, b]

/-- The expression as it is written. -/
def text : Expr → String
  | .literal _ v => v.text
  | .name _ p => p.text
  | .apply _ f a => "(" ++ f.text ++ " " ++ a.text ++ ")"
  | .binary _ op l r => "(" ++ l.text ++ " " ++ op.symbol ++ " " ++ r.text ++ ")"
  | .unary _ .not x => "(not " ++ x.text ++ ")"
  | .unary _ op x => "(" ++ op.symbol ++ x.text ++ ")"
  | .lambda _ p b => "(" ++ p.name ++ " -> " ++ b.text ++ ")"
  | .conditional _ c a b =>
      "(if " ++ c.text ++ " then " ++ a.text ++ " else " ++ b.text ++ ")"
  | .binding _ x v b => "(let " ++ x.name ++ " = " ++ v.text ++ " in " ++ b.text ++ ")"

/-- The uses of unqualified names that are neither bound inside the expression nor listed as bound, from
    left to right. A local binding binds its name in its own value too. -/
def freeUses : (bound : List String) → Expr → List String
  | _, .literal _ _ => []
  | bound, .name _ p => if p.home.isNone && !bound.contains p.name then [p.name] else []
  | bound, .apply _ f a => f.freeUses bound ++ a.freeUses bound
  | bound, .binary _ _ l r => l.freeUses bound ++ r.freeUses bound
  | bound, .unary _ _ x => x.freeUses bound
  | bound, .lambda _ p b => b.freeUses (p.name :: bound)
  | bound, .conditional _ c a b => c.freeUses bound ++ a.freeUses bound ++ b.freeUses bound
  | bound, .binding _ x v b => v.freeUses (x.name :: bound) ++ b.freeUses (x.name :: bound)

/-- The names that an expression uses without binding them, by first appearance. -/
def freeNames (e : Expr) : List String :=
  (e.freeUses []).eraseDups

end Expr

/-! ## Modules -/

/-- A declaration, as in `name = body`. -/
structure Decl where
  name : Ident
  body : Expr
  span : Span
deriving DecidableEq

/-- The declaration as it is written. -/
def Decl.text (d : Decl) : String :=
  d.name.name ++ " = " ++ d.body.text

/-- The declarations of a module, in order. -/
structure Program where
  home : String
  decls : List Decl
deriving DecidableEq

/-- The module as it is written, a line for each declaration. -/
def Program.text (p : Program) : String :=
  String.join (p.decls.map fun d => d.text ++ "\n")

end UnionTyping
