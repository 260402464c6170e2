import UnionTyping.CommandLine

/-!
# `Main` — the program

Reads arguments, files and standard input, and prints what the library makes of them. On a terminal it goes
on line by line.
-/

namespace UnionTyping

/-- The cause of a failure to read a file. -/
def readError : IO.Error → Source.ReadError
  | .inappropriateType _ code _ => if code = 20 then .notDirectory else .isDirectory
  | .invalidArgument _ _ _ => .nameTooLong
  | .permissionDenied _ _ _ => .denied
  | .userError _ => .notText
  | _ => .notFound

/-- Reads the files of a command line. -/
def readFiles : List String → IO (List (String × Except Source.ReadError String))
  | [] => return []
  | name :: rest => do
      let result ← try Except.ok <$> IO.FS.readFile name catch e => pure (.error (readError e))
      return (name, result) :: (← readFiles rest)

/-- What was read from a file of the command line. -/
def contents (files : List (String × Except Source.ReadError String)) (name : String) :
    Except Source.ReadError String :=
  (List.lookup name files).getD (.error .notFound)

/-- Reads and evaluates lines until there are no more. -/
partial def interact (input : IO.FS.Stream) (s : Session) (count : Nat) : IO Unit := do
  IO.print ">> "
  let line ← input.getLine
  if line.isEmpty then
    IO.print CommandLine.farewell
  else
    let (response, s) := s.evaluateLine line ("<repl " ++ toString count ++ ">")
    let (log, s) := s.takeLog
    IO.print response.output
    IO.eprint log
    if let some report := response.report then IO.eprint (report.render s.sources)
    interact input s (count + 1)

/-- Prints an outcome. -/
def CommandLine.Outcome.print (o : CommandLine.Outcome) : IO Unit := do
  IO.print o.output
  IO.eprint o.errors

/-- Runs the command line. -/
def CommandLine.start (c : CommandLine) : IO UInt32 := do
  let files ← readFiles c.files
  let input ← IO.getStdin
  if ← input.isTty then
    match c.sources (contents files) with
    | .error message =>
        IO.eprint message
        return 1
    | .ok sources =>
        let (outcome, s) := evaluateAll sources c.session
        outcome.print
        if outcome.code = 0 && (c.interactive || sources.isEmpty) then interact input s 0
        return UInt32.ofNat outcome.code
  else
    let outcome := c.run (contents files) (← input.readToEnd)
    outcome.print
    return UInt32.ofNat outcome.code

end UnionTyping

/-- Type checks what the arguments name. -/
def main (arguments : List String) : IO UInt32 :=
  match UnionTyping.CommandLine.ofArguments arguments with
  | .ok c => c.start
  | .error message => do
      IO.eprintln ("error: " ++ message)
      return 2
