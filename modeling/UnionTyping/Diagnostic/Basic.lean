import UnionTyping.Source.File
import UnionTyping.Text.Ansi

/-!
# `Diagnostic.Basic` — messages about source text

A diagnostic is a message with a severity. It may point into a source file, carry a note beside the place
it points to, and list further notes with places of their own. `render` shows it in colour, with the lines
of source it speaks of and a marker under them.
-/

namespace UnionTyping

/-- How bad a finding is. -/
inductive Severity where
  | error
  | warning
deriving DecidableEq

/-- A message about source text. -/
structure Diagnostic where
  severity : Severity
  message : String
  /-- Where it points, if anywhere. -/
  span : Option Span := none
  /-- The note beside the marker. -/
  inlineNote : Option String := none
  /-- Further notes, each with its own place. -/
  notes : List (String × Option Span) := []
deriving DecidableEq

namespace Diagnostic

/-- An error that points nowhere yet. -/
def error (message : String) : Diagnostic :=
  ⟨.error, message, none, none, []⟩

/-- An error at a place. -/
def errorAt (message : String) (span : Span) : Diagnostic :=
  ⟨.error, message, some span, none, []⟩

/-- Whether the finding is an error. -/
def isError (d : Diagnostic) : Bool :=
  d.severity == .error

/-- The same finding with a note beside its marker. -/
def withInlineNote (d : Diagnostic) (note : String) : Diagnostic :=
  { d with inlineNote := some note }

/-- The same finding with one more note. -/
def withNote (d : Diagnostic) (note : String) (span : Option Span) : Diagnostic :=
  { d with notes := d.notes ++ [(note, span)] }

/-- The same finding at a place, unless it points somewhere already. -/
def withSpan (d : Diagnostic) (span : Option Span) : Diagnostic :=
  { d with span := d.span.or span }

/-! ## Rendering -/

/-- The word and the colour of a severity. -/
def label : Severity → String × Ansi.Code
  | .error => ("error", .red)
  | .warning => ("warning", .yellow)

/-- A text pushed to the right of a margin of the given width. -/
def padLeft (width : Nat) (text : String) : String :=
  String.ofList (List.replicate (width - text.length) ' ') ++ text

/-- The bar between the margin and the source text. -/
def bar : String :=
  Ansi.paint [.blue] "|"

/-- The start of a snippet line: the margin and the bar. -/
def gutter (text : String) : String :=
  " " ++ padLeft 4 text ++ " " ++ bar

/-- The carets under a span, at least one of them. -/
def carets (span : Span) : String :=
  String.ofList (List.replicate (max span.length 1) '^')

/-- The lines of source that a span touches and, if there is at most one of them, a marker below it that
    starts at the span's column. -/
def snippet (file : Source.File) (span : Span) (marker : String) (color : Ansi.Code) : String :=
  let lines := file.linesOf span.start span.stop
  let shown := lines.map fun (n, text) => gutter (toString n) ++ " " ++ text ++ "\n"
  let column := (file.position span.start).2
  let pointer :=
    if lines.length > 1 then ""
    else gutter "" ++ " " ++ String.ofList (List.replicate (column - 1) ' ')
      ++ Ansi.paint [color] marker ++ "\n"
  gutter "" ++ "\n" ++ String.join shown ++ pointer

/-- The marker of a finding: a note follows the carets, of which there is one if the span is that short. -/
def marker (d : Diagnostic) (span : Span) : String :=
  match d.inlineNote with
  | some note => (if span.length ≤ 1 then "^" else carets span) ++ " " ++ note
  | none => carets span

/-- A further note: in place if its file is known, on a line of its own otherwise. -/
def renderNote (sources : Source.Library) (note : String) (span : Option Span) : String :=
  match span.bind fun s => (sources.get? s.source).map fun file => (s, file) with
  | some (s, file) => snippet file s (carets s ++ " " ++ note) .magenta
  | none => Ansi.paint [.magenta] ("note: " ++ note) ++ "\n"

/-- The finding in colour. A finding whose file is not known shows its message alone. -/
def render (d : Diagnostic) (sources : Source.Library) : String :=
  let (word, color) := label d.severity
  let head := Ansi.paint [color] (word ++ ": " ++ d.message) ++ "\n"
  match d.span.bind fun s => (sources.get? s.source).map fun file => (s, file) with
  | none => head
  | some (s, file) =>
      let (line, column) := file.position s.start
      head ++ "  " ++ file.name ++ ":" ++ toString line ++ ":" ++ toString column ++ "\n"
        ++ snippet file s (d.marker s) color
        ++ String.join (d.notes.map fun (note, span) => renderNote sources note span)

end Diagnostic
end UnionTyping
