import UnionTyping.Binding.Exposure
import UnionTyping.Language.Expr
import UnionTyping.Scope.Locator

/-!
# `Typing.Tree` — expressions with their types

A typed expression has a type at every node. Names have become symbols, and operators have become
applications of the symbols they are declared as.
-/

namespace UnionTyping

/-- A symbol with the type it has in one place. -/
structure Reference where
  symbol : Locator
  type : Ty
deriving DecidableEq

/-- An expression with its types. -/
inductive TypedExpr where
  | literal (span : Span) (type : Ty) (value : Literal)
  | reference (span : Span) (type : Ty) (target : Reference)
  | apply (span : Span) (type : Ty) (function argument : TypedExpr)
  | lambda (span : Span) (type : Ty) (param : Reference) (body : TypedExpr)
  | conditional (span : Span) (type : Ty) (condition positive negative : TypedExpr)
  | binding (span : Span) (type : Ty) (bound : Reference) (value body : TypedExpr)
deriving DecidableEq

namespace TypedExpr

/-- The type of the whole expression. -/
def type : TypedExpr → Ty
  | .literal _ t _ => t
  | .reference _ t _ => t
  | .apply _ t _ _ => t
  | .lambda _ t _ _ => t
  | .conditional _ t _ _ _ => t
  | .binding _ t _ _ _ => t

/-- The range of source the expression was read from. -/
def span : TypedExpr → Span
  | .literal s _ _ => s
  | .reference s _ _ => s
  | .apply s _ _ _ => s
  | .lambda s _ _ _ => s
  | .conditional s _ _ _ _ => s
  | .binding s _ _ _ _ => s

/-- The immediate parts, from left to right. -/
def children : TypedExpr → List TypedExpr
  | .literal _ _ _ => []
  | .reference _ _ _ => []
  | .apply _ _ f a => [f, a]
  | .lambda _ _ _ b => [b]
  | .conditional _ _ c a b => [c, a, b]
  | .binding _ _ _ v b => [v, b]

/-- The expression and all its parts, each before its own parts. -/
def nodes : TypedExpr → List TypedExpr
  | .literal s t v => [.literal s t v]
  | .reference s t r => [.reference s t r]
  | .apply s t f a => .apply s t f a :: (f.nodes ++ a.nodes)
  | .lambda s t p b => .lambda s t p b :: b.nodes
  | .conditional s t c a b => .conditional s t c a b :: (c.nodes ++ a.nodes ++ b.nodes)
  | .binding s t x v b => .binding s t x v b :: (v.nodes ++ b.nodes)

/-- The expression with every type changed, those of references included. -/
def mapTypes (f : Ty → Ty) : TypedExpr → TypedExpr
  | .literal s t v => .literal s (f t) v
  | .reference s t r => .reference s (f t) { r with type := f r.type }
  | .apply s t g a => .apply s (f t) (g.mapTypes f) (a.mapTypes f)
  | .lambda s t p b => .lambda s (f t) { p with type := f p.type } (b.mapTypes f)
  | .conditional s t c a b =>
      .conditional s (f t) (c.mapTypes f) (a.mapTypes f) (b.mapTypes f)
  | .binding s t x v b =>
      .binding s (f t) { x with type := f x.type } (v.mapTypes f) (b.mapTypes f)

/-- The types of the local bindings inside the expression, outer ones first. -/
def bindingTypes (e : TypedExpr) : List Ty :=
  e.nodes.filterMap fun
    | .binding _ _ x _ _ => some x.type
    | _ => none

end TypedExpr

/-- A typed declaration. -/
structure TypedDecl where
  symbol : Locator
  type : Ty
  body : TypedExpr
  span : Span
deriving DecidableEq

/-- The typed declarations of a module, in source order. -/
structure TypedProgram where
  home : String
  decls : List TypedDecl
deriving DecidableEq

/-! ## Printing -/

namespace TypedExpr

/-- What a node is, without its type and its parts. -/
def headline : TypedExpr → Styled
  | .literal _ _ v => [Styled.literal v.text]
  | .reference _ _ r => [Styled.bare r.symbol.text]
  | .apply _ _ _ _ => [Styled.keyword "apply"]
  | .lambda _ _ p _ => [Styled.keyword "lambda", Styled.bare (" " ++ p.symbol.text)]
  | .conditional _ _ _ _ _ => [Styled.keyword "if"]
  | .binding _ _ x _ _ => [Styled.keyword "let", Styled.bare (" " ++ x.symbol.text)]

/-- The indentation of a line. -/
def margin (level : Nat) : Piece :=
  Styled.bare (String.join (List.replicate level "  "))

/-- The colon between a thing and its type. -/
def colon : Styled :=
  [Styled.bare " ", Styled.punctuation ":", Styled.bare " "]

/-- The line of one node. -/
def line (a : Arena) (level : Nat) (e : TypedExpr) : Styled :=
  margin level :: e.headline ++ colon ++ a.pieces e.type ++ [Styled.bare "\n"]

/-- The lines of an expression, a line for each node and parts further to the right. -/
def tree (a : Arena) : (level : Nat) → TypedExpr → Styled
  | level, .literal s t v => line a level (.literal s t v)
  | level, .reference s t r => line a level (.reference s t r)
  | level, .apply s t f x =>
      line a level (.apply s t f x) ++ tree a (level + 1) f ++ tree a (level + 1) x
  | level, .lambda s t p b => line a level (.lambda s t p b) ++ tree a (level + 1) b
  | level, .conditional s t c x y =>
      line a level (.conditional s t c x y) ++ tree a (level + 1) c ++ tree a (level + 1) x
        ++ tree a (level + 1) y
  | level, .binding s t x v b =>
      line a level (.binding s t x v b) ++ tree a (level + 1) v ++ tree a (level + 1) b

end TypedExpr

namespace TypedDecl

/-- The declaration as `name : type`, its variables called `a`, `b` and so on. -/
def signature (a : Arena) (d : TypedDecl) : Styled :=
  Styled.declared d.symbol.name :: TypedExpr.colon ++ a.generalized d.type

/-- The signature with the body below it. -/
def tree (a : Arena) (level : Nat) (d : TypedDecl) : Styled :=
  TypedExpr.margin level :: d.signature a ++ [Styled.bare "\n"] ++ d.body.tree a (level + 1)

end TypedDecl

/-- The module's name with its declarations below it. -/
def TypedProgram.tree (a : Arena) (p : TypedProgram) : Styled :=
  [Styled.keyword "module", Styled.bare (" " ++ p.home ++ "\n")]
    ++ p.decls.flatMap (TypedDecl.tree a 1)

end UnionTyping
