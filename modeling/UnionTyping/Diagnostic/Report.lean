import UnionTyping.Diagnostic.Basic

/-!
# `Diagnostic.Report` — several diagnostics shown together

A report opens with the number of errors and warnings, or with `Ok` when there are none, and then shows
each diagnostic in turn.
-/

namespace UnionTyping

/-- The diagnostics found, in order. -/
structure Report where
  diagnostics : List Diagnostic := []
deriving DecidableEq

namespace Report

/-- A report of one diagnostic. -/
def single (d : Diagnostic) : Report :=
  ⟨[d]⟩

/-- Whether nothing was found. -/
def isEmpty (r : Report) : Bool :=
  r.diagnostics.isEmpty

/-- Whether any finding is an error. -/
def hasErrors (r : Report) : Bool :=
  r.diagnostics.any Diagnostic.isError

/-- The opening line: how many errors and warnings there are. -/
def summary (r : Report) : String :=
  let errors := r.diagnostics.countP Diagnostic.isError
  let warnings := r.diagnostics.length - errors
  if r.diagnostics.isEmpty then Ansi.paint [.bold, .green] "Ok" ++ "\n"
  else
    (if errors > 0 then Ansi.paint [.bold, .red] (toString errors ++ " error(s)") ++ " " else "")
      ++ (if warnings > 0 then Ansi.paint [.yellow] (toString warnings ++ " warning(s)") else "")
      ++ "\n"

/-- The whole report in colour. -/
def render (r : Report) (sources : Source.Library) : String :=
  r.summary ++ String.join (r.diagnostics.map (·.render sources))

/-- The whole report without colour. -/
def plain (r : Report) (sources : Source.Library) : String :=
  Ansi.strip (r.render sources)

end Report
end UnionTyping
