import UnionTyping.Diagnostic.Basic
import UnionTyping.Grammar.Expression

/-!
# `Grammar.Line` — modules line by line, and expressions on their own

A module has at most one declaration on each line. Lines may be blank, and a comment may stand at the end
of any line.
-/

namespace UnionTyping
namespace Grammar

open Parse

/-- A declaration. -/
def decl (source : Nat) : Parse Decl := do
  let start ← position
  let n ← ident source
  blanks
  exact "="
  blanks
  let body ← expr source
  return ⟨n, body, ← spanFrom source start⟩

/-- A line of a module. -/
def line (source : Nat) : Parse (Option Decl) := do
  blanks
  let d ← Parse.optional (decl source)
  blanks
  let _ ← Parse.optional comment
  return d

/-- All lines of a module. -/
def lines (source : Nat) : Parse (List Decl) := do
  let first ← line source
  let rest ← many (do lineEnd; line source)
  return (first :: rest).filterMap id

/-- An expression on its own. -/
def expression (source : Nat) : Parse Expr := do
  blanks
  let e ← expr source
  blanks
  let _ ← Parse.optional comment
  return e

end Grammar

/-! ## Reading source texts -/

/-- Reads the text of a module; `source` is its number. -/
def parseProgram (source : Nat) (home text : String) : Except Grammar.SyntaxError Program :=
  match (Grammar.lines source).run text with
  | .ok decls => .ok ⟨home, decls⟩
  | .error e => .error e

/-- Reads the text of an expression; `source` is its number. -/
def parseExpr (source : Nat) (text : String) : Except Grammar.SyntaxError Expr :=
  (Grammar.expression source).run text

/-- The place of a syntax error: the byte at which reading failed. -/
def Grammar.SyntaxError.span (e : Grammar.SyntaxError) (source : Nat) : Span :=
  ⟨source, e.offset, e.offset + 1⟩

/-- The syntax error as a diagnostic. -/
def Grammar.SyntaxError.diagnostic (e : Grammar.SyntaxError) (source : Nat) : Diagnostic :=
  (Diagnostic.errorAt "syntax error" (e.span source)).withInlineNote ("expected " ++ e.expectation)

end UnionTyping
