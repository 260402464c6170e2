import UnionTyping.Text.Ansi

/-!
# `Text.Styled` — text as a sequence of styled pieces

What can be shown both in colour and plainly is built as a list of pieces. `text` reads the pieces alone,
`painted` puts each of them into its style.
-/

namespace UnionTyping

/-- A text in one style; no attributes at all means that it is written as it stands. -/
structure Piece where
  style : Ansi.Style
  text : String
deriving DecidableEq

/-- The piece in colour. -/
def Piece.painted (p : Piece) : String :=
  if p.style.isEmpty then p.text else Ansi.paint p.style p.text

/-- A sequence of pieces. -/
abbrev Styled := List Piece

namespace Styled

/-- The pieces without their styles. -/
def text (s : Styled) : String :=
  String.join (s.map Piece.text)

/-- The pieces in their styles. -/
def painted (s : Styled) : String :=
  String.join (s.map Piece.painted)

/-- The painted pieces as a reader without colours gets them. -/
def plain (s : Styled) : String :=
  Ansi.strip s.painted

/-! ## The kinds of pieces -/

/-- Written as it stands. -/
def bare (text : String) : Piece := ⟨[], text⟩

/-- The name of a type. -/
def typeName (text : String) : Piece := ⟨[.blue, .bold], text⟩

/-- A type variable, with its mark. -/
def variableName (text : String) : Piece := ⟨[.yellow, .italic], "'" ++ text⟩

/-- Brackets, commas, colons and arrows. -/
def punctuation (text : String) : Piece := ⟨[.cyan], text⟩

/-- A word of the notation. -/
def keyword (text : String) : Piece := ⟨[.green], text⟩

/-- A literal. -/
def literal (text : String) : Piece := ⟨[.magenta], text⟩

/-- A name that is being declared. -/
def declared (text : String) : Piece := ⟨[.bold], text⟩

/-- The pieces of all items, with a separator between each two. -/
def separated (separator : Styled) (items : List Styled) : Styled :=
  separator.intercalate items

end Styled
end UnionTyping
