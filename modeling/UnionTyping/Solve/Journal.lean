/-!
# `Solve.Journal` — what the solver reports while it works

Warnings are always kept. The steps themselves are kept only while tracing, and their wording is not even
computed otherwise.
-/

namespace UnionTyping

/-- How detailed a record is. -/
inductive LogLevel where
  | trace
  | debug
  | warn
deriving DecidableEq

/-- The word for a level. -/
def LogLevel.text : LogLevel → String
  | .trace => "TRACE"
  | .debug => "DEBUG"
  | .warn => "WARN"

/-- One record. -/
structure LogRecord where
  level : LogLevel
  message : String
deriving DecidableEq

/-- The record as a line. -/
def LogRecord.text (r : LogRecord) : String :=
  r.level.text ++ " " ++ r.message

/-- The records kept so far. -/
structure Journal where
  /-- Whether steps are kept. -/
  tracing : Bool := false
  records : Array LogRecord := #[]
deriving DecidableEq

namespace Journal

/-- Keeps a warning. -/
def warn (j : Journal) (message : String) : Journal :=
  { j with records := j.records.push ⟨.warn, message⟩ }

/-- Keeps a step, while tracing. -/
def note (j : Journal) (level : LogLevel) (message : Unit → String) : Journal :=
  if j.tracing then { j with records := j.records.push ⟨level, message ()⟩ } else j

end Journal
end UnionTyping
