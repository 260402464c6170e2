import UnionTyping.Grammar.Parse
import UnionTyping.Language.Expr

/-!
# `Grammar.Token` — blanks, words and literals

Words start with a letter or an underscore and go on with letters, digits, underscores and quotes. Some of
them are reserved. A keyword is read only where no longer word starts with it.
-/

namespace UnionTyping
namespace Grammar

open Parse

/-! ## Blanks and comments -/

/-- Spaces and tabs. -/
def isSpace (c : Char) : Bool := c == ' ' || c == '\t'

/-- The characters that end a line. -/
def isLineEnd (c : Char) : Bool := c == '\r' || c == '\n'

/-- Any number of blanks. -/
def blanks : Parse Unit := do
  let _ ← chars isSpace
  return ()

/-- At least one blank. -/
def blanks1 : Parse Unit := do
  let _ ← chars1 isSpace
  return ()

/-- The end of a line: a line feed, a carriage return, or both in one. -/
def lineEnd : Parse Unit :=
  quiet (exact "\r\n") <|> do
    let _ ← char isLineEnd
    return ()

/-- A comment, up to the end of its line. -/
def comment : Parse Unit := do
  let _ ← char (· == '#')
  let _ ← chars fun c => !isLineEnd c
  return ()

/-! ## Words -/

/-- What a word starts with. -/
def isWordStart (c : Char) : Bool :=
  c == '_' || (decide ('A' ≤ c) && decide (c ≤ 'Z')) || (decide ('a' ≤ c) && decide (c ≤ 'z'))

/-- Decimal digits. -/
def isDigit (c : Char) : Bool :=
  decide ('0' ≤ c) && decide (c ≤ '9')

/-- What a word goes on with. -/
def isWordRest (c : Char) : Bool :=
  isWordStart c || isDigit c || c == '\''

/-- A word. -/
def word : Parse String := do
  let c ← char isWordStart
  let cs ← chars isWordRest
  return String.ofList (c :: cs)

/-- The words that are no names. -/
def reserved : List String :=
  ["if", "then", "else", "let", "in", "and", "or", "not", "True", "False"]

/-- A word that is not reserved. -/
def unreserved : Parse String := do
  let w ← word
  if reserved.contains w then fail else return w

/-- A name. -/
def name : Parse String :=
  quiet unreserved <|> expected "identifier"

/-- A keyword: the text, with nothing behind it that would make a longer word. -/
def keyword (text : String) : Parse Unit := do
  exact text
  notFollowedBy (char isWordRest)

/-- A name with the range it was read from. -/
def ident (source : Nat) : Parse Ident := do
  let start ← position
  let n ← name
  let stop ← position
  return ⟨n, ⟨source, start, stop⟩⟩

/-- The path of a first name and further words: the last one is the name, the others name the module. -/
def pathOf (first : String) (rest : List String) : Path :=
  match rest.getLast? with
  | none => ⟨none, first⟩
  | some last => ⟨some (".".intercalate (first :: rest.dropLast)), last⟩

/-- A path. Behind its first name reserved words are allowed. -/
def path : Parse Path := do
  let first ← name
  let rest ← many (do exact "."; word)
  return pathOf first rest

/-! ## Literals -/

/-- The value of a row of decimal digits. -/
def digitsValue (cs : List Char) : Nat :=
  cs.foldl (fun n c => 10 * n + (c.toNat - '0'.toNat)) 0

/-- The least number that is too large for a whole number literal. -/
def integerLimit : Nat := Nat.pow 2 63

/-- A whole number. -/
def integerLiteral : Parse Literal :=
  quiet (do
    let ds ← chars1 isDigit
    if digitsValue ds < integerLimit then return .integer (digitsValue ds) else fail)
  <|> expected "integer"

/-- A number with digits on both sides of a point. -/
def doubleLiteral : Parse Literal :=
  quiet (do
    let whole ← chars1 isDigit
    exact "."
    let rest ← chars1 isDigit
    return .double (Binary.ofDecimal (digitsValue (whole ++ rest)) rest.length))
  <|> expected "double"

/-- The character that a letter behind a backslash stands for. -/
def unescape? : Char → Option Char
  | 'n' => some '\n'
  | 'r' => some '\r'
  | 't' => some '\t'
  | '"' => some '"'
  | '\\' => some '\\'
  | _ => none

/-- The characters of a text literal up to the first that cannot be one, from a place on. -/
def readStringChars (offset : Nat) : List Char → List Char × Cursor
  | [] => ([], ⟨offset, []⟩)
  | '\\' :: [] => ([], ⟨offset, ['\\']⟩)
  | '\\' :: c :: rest =>
      match unescape? c with
      | some x =>
          let (xs, cursor) := readStringChars (offset + 2) rest
          (x :: xs, cursor)
      | none => ([], ⟨offset, '\\' :: c :: rest⟩)
  | c :: rest =>
      if c == '"' || isLineEnd c then ([], ⟨offset, c :: rest⟩)
      else
        let (xs, cursor) := readStringChars (offset + c.utf8Size) rest
        (c :: xs, cursor)

/-- The characters of a text literal. -/
def stringChars : Parse (List Char) := fun c =>
  ⟨some (readStringChars c.offset c.rest), {}⟩

/-- A text between quotes. -/
def stringLiteral : Parse Literal :=
  quiet (do
    exact "\""
    let cs ← stringChars
    exact "\""
    return .string (String.ofList cs))
  <|> expected "string"

/-- A truth value. -/
def booleanLiteral : Parse Literal :=
  (do keyword "True"; return .boolean true) <|> (do keyword "False"; return .boolean false)

/-- A literal. -/
def literal : Parse Literal :=
  doubleLiteral <|> integerLiteral <|> stringLiteral <|> booleanLiteral

end Grammar
end UnionTyping
