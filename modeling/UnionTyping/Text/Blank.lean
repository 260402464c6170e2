/-!
# `Text.Blank` — white space at the ends of a text

White space is the standard's property of that name: twenty-five code points.
-/

namespace UnionTyping
namespace Text

/-- The ranges of white space. -/
def blanks : List (Nat × Nat) :=
  [(0x9, 0xD), (0x20, 0x20), (0x85, 0x85), (0xA0, 0xA0), (0x1680, 0x1680), (0x2000, 0x200A),
   (0x2028, 0x2029), (0x202F, 0x202F), (0x205F, 0x205F), (0x3000, 0x3000)]

/-- Whether a character is white space. -/
def isBlank (c : Char) : Bool :=
  blanks.any fun (first, last) => first ≤ c.toNat && c.toNat ≤ last

/-- The characters without white space at both ends. -/
def trimChars (cs : List Char) : List Char :=
  ((cs.dropWhile isBlank).reverse.dropWhile isBlank).reverse

/-- The text without white space at both ends. -/
def trim (s : String) : String :=
  String.ofList (trimChars s.toList)

end Text
end UnionTyping
