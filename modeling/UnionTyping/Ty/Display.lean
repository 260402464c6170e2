import UnionTyping.Text.Styled
import UnionTyping.Ty.Basic

/-!
# `Ty.Display` — types as text

Arrows associate to the right, so a function in argument position is parenthesised, and so is a union
there. Members of a union stand between bars; a function among them is parenthesised. Variables are marked
by a quote. `text` writes types for messages, under the variables' own names. `pieces` writes them for readers, in
colour, and what stands behind the quote is up to the caller: the variables' own names, or letters invented for them.
-/

namespace UnionTyping
namespace Ty

/-- Type arguments between angle brackets; nothing if there are none. -/
def angled : List Styled → Styled
  | [] => []
  | items =>
      Styled.punctuation "<" :: Styled.separated [Styled.punctuation ",", Styled.bare " "] items
        ++ [Styled.punctuation ">"]

/-- The pieces in parentheses if the condition holds. -/
def parenthesized (condition : Bool) (s : Styled) : Styled :=
  if condition then Styled.punctuation "(" :: s ++ [Styled.punctuation ")"] else s

mutual
/-- The pieces of a type, with the given names for its variables. -/
def pieces (nameOf : TyVar → String) : Ty → Styled
  | .simple n => [Styled.typeName n]
  | .func a r =>
      parenthesized (a.isFunc || a.isUnion) (pieces nameOf a)
        ++ [Styled.bare " ", Styled.punctuation "->", Styled.bare " "] ++ pieces nameOf r
  | .record n args fields =>
      Styled.typeName n :: angled (piecesList nameOf args)
        ++ [Styled.bare " ", Styled.punctuation "\x7b", Styled.bare " "]
        ++ Styled.separated [Styled.punctuation ",", Styled.bare " "] (piecesFields nameOf fields)
        ++ [Styled.bare " ", Styled.punctuation "\x7d"]
  | .algebraic n args _ => Styled.typeName n :: angled (piecesList nameOf args)
  | .recursive n args => Styled.typeName n :: angled (piecesList nameOf args)
  | .union members =>
      Styled.separated [Styled.bare " ", Styled.punctuation "|", Styled.bare " "]
        (piecesMembers nameOf members)
  | .var v => [Styled.variableName (nameOf v)]

/-- The pieces of each type. -/
def piecesList (nameOf : TyVar → String) : List Ty → List Styled
  | [] => []
  | t :: ts => pieces nameOf t :: piecesList nameOf ts

/-- The pieces of each field. -/
def piecesFields (nameOf : TyVar → String) : List (String × Ty) → List Styled
  | [] => []
  | (l, t) :: fs =>
      (Styled.bare l :: Styled.punctuation ":" :: Styled.bare " " :: pieces nameOf t)
        :: piecesFields nameOf fs

/-- The pieces of each member of a union. -/
def piecesMembers (nameOf : TyVar → String) : List Ty → List Styled
  | [] => []
  | t :: ts => parenthesized t.isFunc (pieces nameOf t) :: piecesMembers nameOf ts
end

/-! ## Without styles -/

/-- Type arguments between angle brackets; nothing if there are none. -/
def bracketed : List String → String
  | [] => ""
  | items => "<" ++ ", ".intercalate items ++ ">"

mutual
/-- The text of a type, under its variables' own names. -/
def text : Ty → String
  | .simple n => n
  | .func a r => (if a.isFunc || a.isUnion then "(" ++ text a ++ ")" else text a) ++ " -> " ++ text r
  | .record n args fields =>
      n ++ bracketed (textList args) ++ " \x7b " ++ ", ".intercalate (textFields fields) ++ " \x7d"
  | .algebraic n args _ => n ++ bracketed (textList args)
  | .recursive n args => n ++ bracketed (textList args)
  | .union members => " | ".intercalate (textMembers members)
  | .var v => "'" ++ v.name

/-- The text of each type. -/
def textList : List Ty → List String
  | [] => []
  | t :: ts => text t :: textList ts

/-- The text of each field. -/
def textFields : List (String × Ty) → List String
  | [] => []
  | (l, t) :: fs => (l ++ ": " ++ text t) :: textFields fs

/-- The text of each member of a union. -/
def textMembers : List Ty → List String
  | [] => []
  | t :: ts => (if t.isFunc then "(" ++ text t ++ ")" else text t) :: textMembers ts
end

/-! ## Invented names -/

/-- The invented name of the variable number `i`: `a` to `z`, then `a1` to `z1`, and so on. -/
def letterName (i : Nat) : String :=
  let letter := String.singleton (Char.ofNat ('a'.toNat + i % 26))
  if i < 26 then letter else letter ++ toString (i / 26)

/-- Invented names for variables, in the order in which they are listed, by their numbers. -/
def letters (vs : List TyVar) : List (Nat × String) :=
  vs.zipIdx.map fun (v, i) => (v.id, letterName i)

/-- The invented name of a variable; one that has none keeps its own. -/
def letterOf (names : List (Nat × String)) (v : TyVar) : String :=
  (names.reverse.lookup v.id).getD v.name

end Ty
end UnionTyping
