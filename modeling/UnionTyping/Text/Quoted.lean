import UnionTyping.Text.Printable

/-!
# `Text.Quoted` — texts between quotes

A quoted text shows every character of a text on one line: quotes and backslashes stand behind a backslash,
the common controls have a letter each, and all else that has no form of its own is written as its code
point in hexadecimal.
-/

namespace UnionTyping
namespace Text

/-- The code point of a character between braces, in hexadecimal. -/
def codePoint (c : Char) : String :=
  "\\u\x7b" ++ String.ofList (Nat.toDigits 16 c.toNat) ++ "\x7d"

/-- A character as it is written between quotes. -/
def escaped (c : Char) : String :=
  match c with
  | '\x00' => "\\0"
  | '\t' => "\\t"
  | '\r' => "\\r"
  | '\n' => "\\n"
  | '\\' => "\\\\"
  | '"' => "\\\""
  | c => if !extendsGrapheme c && isPrintable c then String.singleton c else codePoint c

/-- A text between quotes. -/
def quoted (s : String) : String :=
  "\"" ++ String.join (s.toList.map escaped) ++ "\""

end Text
end UnionTyping
