/-!
# `Text.Ansi` — coloured text and its plain reading

Terminal colours are written as escape sequences: an escape character, a few more characters, and a
closing `m`. `paint` puts a text between the sequences that switch a style on and the one that resets it.

The plain reading drops every stretch from an escape character up to and including the next `m`. For a
whole text it is the filter `skim` (`strip`). A stream of bytes arrives in pieces (`Stripper`): each piece is
passed over once and handed on in runs of bytes, and all that is remembered between two pieces is whether a
sequence is still open.
-/

namespace UnionTyping
namespace Ansi

/-! ## Writing styles -/

/-- The display attributes that the printers use. -/
inductive Code where
  | reset
  | bold
  | italic
  | red
  | green
  | yellow
  | blue
  | magenta
  | cyan
deriving DecidableEq

/-- The number that selects an attribute. -/
def Code.number : Code → String
  | .reset => "0"
  | .bold => "1"
  | .italic => "3"
  | .red => "31"
  | .green => "32"
  | .yellow => "33"
  | .blue => "34"
  | .magenta => "35"
  | .cyan => "36"

/-- The character that opens an escape sequence. -/
def opening : Char := '\x1b'

/-- The character that closes an escape sequence. -/
def closing : Char := 'm'

/-- The escape sequence of an attribute. -/
def Code.text (c : Code) : String :=
  "\x1b[" ++ c.number ++ "m"

/-- A style is the list of attributes switched on for a text. -/
abbrev Style := List Code

/-- The escape sequences that switch a style on. -/
def Style.text (style : Style) : String :=
  String.join (style.map Code.text)

/-- A text in a style, with everything switched off behind it. -/
def paint (style : Style) (text : String) : String :=
  Style.text style ++ text ++ Code.reset.text

/-! ## Reading plain text -/

/-- The symbols that lie outside escape sequences, and whether a sequence is open at the end. The first
    argument after the two marks says whether one is open at the start. -/
def skim {α : Type} [DecidableEq α] (opens closes : α) : Bool → List α → Bool × List α
  | inEscape, [] => (inEscape, [])
  | true, a :: rest => skim opens closes (decide (a ≠ closes)) rest
  | false, a :: rest =>
      if a = opens then skim opens closes true rest
      else
        let (inEscape, kept) := skim opens closes false rest
        (inEscape, a :: kept)

/-- A piece behind another one is read from where the first one left off. -/
theorem skim_append {α : Type} [DecidableEq α] (opens closes : α) (inEscape : Bool)
    (xs ys : List α) :
    skim opens closes inEscape (xs ++ ys) =
      ((skim opens closes (skim opens closes inEscape xs).1 ys).1,
        (skim opens closes inEscape xs).2
          ++ (skim opens closes (skim opens closes inEscape xs).1 ys).2) := by
  induction xs generalizing inEscape with
  | nil => simp [skim]
  | cons a rest ih =>
      cases inEscape with
      | true => rw [List.cons_append, skim, skim, ih]
      | false =>
          rw [List.cons_append, skim, skim]
          by_cases h : a = opens
          · rw [if_pos h, if_pos h, ih]
          · rw [if_neg h, if_neg h, ih]
            rfl

/-- Outside a sequence nothing is dropped as long as none opens. -/
theorem skim_of_not_mem {α : Type} [DecidableEq α] {opens closes : α} {xs : List α}
    (h : opens ∉ xs) :
    skim opens closes false xs = (false, xs) := by
  induction xs with
  | nil => rfl
  | cons a rest ih =>
      have ha : a ≠ opens := fun e => h (e ▸ List.mem_cons_self)
      rw [skim, if_neg ha, ih (fun e => h (List.mem_cons_of_mem a e))]

/-- A text without its escape sequences. -/
def strip (text : String) : String :=
  String.ofList (skim opening closing false text.toList).2

/-- A byte stream that is filtered piece by piece. -/
structure Stripper where
  /-- An escape sequence was opened and is not closed yet. -/
  inEscape : Bool := false
  /-- The bytes that came through so far. -/
  output : List UInt8 := []

/-- The byte that opens an escape sequence. -/
def openingByte : UInt8 := 0x1b

/-- The byte that closes an escape sequence. -/
def closingByte : UInt8 := 0x6d

/-- A pass over one piece: whether a sequence is open, where the bytes begin that are still to be passed on,
    and what came through. -/
structure Pass where
  inEscape : Bool
  start : Nat
  output : List UInt8

/-- Looks at the next byte of the piece and its position. What lies before an escape sequence is passed on
    when the sequence opens. -/
def Pass.step (chunk : List UInt8) (p : Pass) (byte : UInt8 × Nat) : Pass :=
  if p.inEscape then
    if byte.1 = closingByte then { p with inEscape := false, start := byte.2 + 1 } else p
  else if byte.1 = openingByte then
    { p with inEscape := true, output := p.output ++ (chunk.take byte.2).drop p.start }
  else p

/-- Takes one more piece, and reports how many bytes of it were taken: all of them. -/
def Stripper.write (s : Stripper) (chunk : List UInt8) : Stripper × Nat :=
  let p := chunk.zipIdx.foldl (Pass.step chunk) ⟨s.inEscape, 0, s.output⟩
  let output := if !p.inEscape && p.start < chunk.length then p.output ++ chunk.drop p.start else p.output
  (⟨p.inEscape, output⟩, chunk.length)

end Ansi
end UnionTyping
