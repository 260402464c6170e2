import UnionTyping.Grammar.Token

/-!
# `Grammar.Expression` — expressions by precedence

Operators have levels, and a higher level binds tighter. An expression is read with a least level: first an
operand, then as long as possible an operator of at least that level with its right operand, which is read
with the next higher level, so that operators associate to the left. Prefix operators take everything above
the level of the tightest operator as their operand. Juxtaposition binds tighter still; what stands on its
right is an atom, so that `a + b` is never `a` applied to `+b`.

Every expression inside another one stands behind a character that was read already. So as many levels of
nesting are enough as the text has characters.
-/

namespace UnionTyping

/-- The level of an operator. -/
def BinaryOp.level : BinaryOp → Nat
  | .or => 1
  | .and => 2
  | .eq => 3
  | .ne => 3
  | .le => 4
  | .ge => 4
  | .lt => 4
  | .gt => 4
  | .add => 5
  | .sub => 5
  | .mul => 6
  | .div => 6
  | .rem => 6

/-- Whether the operator is a word. -/
def BinaryOp.isWord : BinaryOp → Bool
  | .or => true
  | .and => true
  | _ => false

namespace Grammar

open Parse

/-! ## Operators -/

/-- The operators in the order in which they are tried: by level, and a longer one before one that it
    starts with. -/
def binaryOps : List BinaryOp :=
  [.or, .and, .eq, .ne, .le, .ge, .lt, .gt, .add, .sub, .mul, .div, .rem]

/-- The level of the operands of prefix operators. -/
def prefixLevel : Nat := 7

/-- The operator itself. -/
def binaryOp (op : BinaryOp) : Parse Unit :=
  if op.isWord then keyword op.symbol else exact op.symbol

/-- The prefix operator itself. -/
def unaryOp (op : UnaryOp) : Parse Unit :=
  match op with
  | .not => keyword op.symbol
  | _ => exact op.symbol

section
variable (source : Nat) (expr : (least : Nat) → Parse Expr)

/-! ## Atoms -/

/-- The range from a start to the present offset. -/
def spanFrom (start : Nat) : Parse Span := do
  return ⟨source, start, ← position⟩

/-- A function. -/
def lambda (start : Nat) : Parse Expr := do
  let x ← ident source
  blanks
  exact "->"
  blanks
  let body ← expr 0
  return .lambda (← spanFrom source start) x body

/-- A conditional. -/
def conditional (start : Nat) : Parse Expr := do
  keyword "if"
  blanks
  let c ← expr 0
  blanks
  keyword "then"
  blanks
  let a ← expr 0
  blanks
  keyword "else"
  blanks
  let b ← expr 0
  return .conditional (← spanFrom source start) c a b

/-- A local binding. -/
def binding (start : Nat) : Parse Expr := do
  keyword "let"
  blanks
  let x ← ident source
  blanks
  exact "="
  blanks
  let v ← expr 0
  blanks
  keyword "in"
  blanks
  let b ← expr 0
  return .binding (← spanFrom source start) x v b

/-- An expression in parentheses, which belong to its range. -/
def parenthesized (start : Nat) : Parse Expr := do
  exact "("
  blanks
  let e ← expr 0
  blanks
  exact ")"
  return e.withSpan (← spanFrom source start)

/-- An expression that is not cut by any operator. -/
def atom : Parse Expr := do
  let start ← position
  lambda source expr start
    <|> conditional source expr start
    <|> binding source expr start
    <|> (do let v ← literal; return .literal (← spanFrom source start) v)
    <|> (do let p ← path; return .name (← spanFrom source start) p)
    <|> parenthesized source expr start

/-! ## Operands and operators -/

/-- A prefix operator and its operand. -/
def prefixed (start : Nat) (op : UnaryOp) : Parse Expr := do
  unaryOp op
  blanks
  let x ← expr prefixLevel
  return .unary (← spanFrom source start) op x

/-- An operand: a prefix operator with its own operand, or an atom. -/
def operand (start : Nat) : Parse Expr :=
  prefixed source expr start .neg
    <|> prefixed source expr start .plus
    <|> prefixed source expr start .not
    <|> atom source expr

/-- An operator and its right operand, behind a left one. -/
def infixed (start : Nat) (left : Expr) (op : BinaryOp) : Parse Expr := do
  blanks
  binaryOp op
  blanks
  let right ← expr (op.level + 1)
  return .binary (← spanFrom source start) op left right

/-- An argument behind a function. -/
def applied (start : Nat) (left : Expr) : Parse Expr := do
  blanks1
  let argument ← atom source expr
  return .apply (← spanFrom source start) left argument

/-- One more operator with its right operand, or one more argument. -/
def extension (least start : Nat) (left : Expr) : Parse Expr :=
  firstOf ((binaryOps.filter fun op => least ≤ op.level).map (infixed source expr start left))
    <|> applied source expr start left

/-- As many extensions as there are, at most the given number. -/
def extendWithin (least start : Nat) : (limit : Nat) → Expr → Parse Expr
  | 0, left => pure left
  | limit + 1, left =>
      (do
        let e ← extension source expr least start left
        extendWithin least start limit e)
      <|> pure left

/-- As many extensions as there are: each reads at least one character, and the attempt behind the last one
    fails. -/
def extend (least start : Nat) (left : Expr) : Parse Expr := fun c =>
  extendWithin source expr least start (c.rest.length + 1) left c

end

/-! ## Expressions -/

/-- An expression whose operators have at least the given level, with at most `depth` expressions inside
    one another. -/
def exprWithin (source : Nat) : (depth : Nat) → (least : Nat) → Parse Expr
  | 0, _ => fail
  | depth + 1, least => do
      let start ← position
      let left ← operand source (exprWithin source depth) start
      extend source (exprWithin source depth) least start left

/-- An expression. -/
def expr (source : Nat) : Parse Expr := fun c =>
  exprWithin source (c.rest.length + 1) 0 c

end Grammar
end UnionTyping
