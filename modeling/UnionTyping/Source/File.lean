import UnionTyping.Source.Span

/-!
# `Source.File` — source texts, their lines, and the positions in them

A file is a name and a text. Its lines are what lies between line feeds, without a carriage return before
the line feed; a line feed at the very end opens no further line. Every line knows the byte offset at which
it starts, so an offset is turned into a line and a column by finding the first line that it touches.
-/

namespace UnionTyping
namespace Source

/-! ## Lines -/

/-- One line of a text: the byte offset of its first character, and the line without its terminator. -/
structure Line where
  start : Nat
  text : String
deriving DecidableEq

/-- The offset just behind the line's last character. -/
def Line.stop (l : Line) : Nat :=
  l.start + l.text.utf8ByteSize

/-- The line whose characters are read in reverse; a carriage return at its end is dropped. -/
def Line.ofReversed (start : Nat) : List Char → Line
  | '\r' :: cs => ⟨start, String.ofList cs.reverse⟩
  | cs => ⟨start, String.ofList cs.reverse⟩

/-- The number of bytes that the characters take in a text. -/
def byteLength : List Char → Nat
  | [] => 0
  | c :: cs => c.utf8Size + byteLength cs

/-- The lines of a text that starts at offset `start`, where the characters `pending` of the current line
    were read already, the last one first. -/
def Line.split (start : Nat) : (pending : List Char) → List Char → List Line
  | [], [] => []
  | pending, [] => [Line.ofReversed start pending]
  | pending, c :: cs =>
      if c = '\n' then
        Line.ofReversed start pending :: Line.split (start + byteLength pending + 1) [] cs
      else Line.split start (c :: pending) cs

/-! ## Files -/

/-- A named source text. -/
structure File where
  name : String
  text : String
deriving DecidableEq

namespace File

/-- The lines of a file, in order. -/
def lines (f : File) : List Line :=
  Line.split 0 [] f.text.toList

/-- The first numbered line, counted from `n`, that an offset touches: a line reaches from its first
    character to just behind its last. -/
def findLine (offset : Nat) : Nat → List Line → Option (Nat × Line)
  | _, [] => none
  | n, l :: ls =>
      if l.start ≤ offset ∧ offset ≤ l.stop then some (n, l) else findLine offset (n + 1) ls

/-- The line and the column of a byte offset, both counted from one. An offset that touches no line is
    shown at the start of the file. -/
def position (f : File) (offset : Nat) : Nat × Nat :=
  match findLine offset 1 f.lines with
  | some (n, l) => (n, offset - l.start + 1)
  | none => (1, 1)

/-- The text of a line, counted from one. -/
def lineText? (f : File) (n : Nat) : Option String :=
  match n with
  | 0 => none
  | k + 1 => (f.lines[k]?).map Line.text

/-- The numbered lines from the one in which a span starts to the one in which it stops. -/
def linesOf (f : File) (start stop : Nat) : List (Nat × String) :=
  let first := (f.position start).1
  let last := (f.position stop).1
  (List.range' first (last + 1 - first)).filterMap fun n => (f.lineText? n).map fun text => (n, text)

end File

/-! ## All sources of a session -/

/-- The source files seen so far; a file's number is its place in the list. -/
structure Library where
  files : Array File := #[]

namespace Library

/-- The file of a number. -/
def get? (l : Library) (id : Nat) : Option File :=
  l.files[id]?

/-- The number of files. -/
def size (l : Library) : Nat :=
  l.files.size

/-- Adds a file and gives its number. -/
def add (l : Library) (f : File) : Nat × Library :=
  (l.files.size, ⟨l.files.push f⟩)

end Library
end Source
end UnionTyping
