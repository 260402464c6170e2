import UnionTyping.Session
import UnionTyping.Source.Directory

/-!
# `CommandLine` — the program's arguments and what it does with them

The sources are the declarations given as arguments, joined by line ends, then the files, then standard
input. All of them are read before the first one is evaluated, and the first failure ends the run.
-/

namespace UnionTyping

/-- What the arguments ask for. -/
structure CommandLine where
  /-- Declarations to type, a text for each argument. -/
  exprs : List String := []
  /-- Files to type. -/
  files : List String := []
  interactive : Bool := false
  home : String := "main"
  tracing : Bool := false
  showsTrees : Bool := false
deriving DecidableEq

namespace CommandLine

/-! ## Reading arguments -/

/-- The options that take a value. -/
inductive ValueOption where
  | expr
  | file
  | home

/-- The options that take no value. -/
inductive Switch where
  | interactive
  | trace
  | typedTree

/-- The command line with an option's value added. -/
def withValue (c : CommandLine) : ValueOption → String → CommandLine
  | .expr, v => { c with exprs := c.exprs ++ [v] }
  | .file, v => { c with files := c.files ++ [v] }
  | .home, v => { c with home := v }

/-- The command line with a switch on. -/
def withSwitch (c : CommandLine) : Switch → CommandLine
  | .interactive => { c with interactive := true }
  | .trace => { c with tracing := true }
  | .typedTree => { c with showsTrees := true }

/-- The option of a long name. -/
def longOption? : String → Option (ValueOption ⊕ Switch)
  | "expr" => some (.inl .expr)
  | "file" => some (.inl .file)
  | "module" => some (.inl .home)
  | "interactive" => some (.inr .interactive)
  | "trace" => some (.inr .trace)
  | "typed-ast" => some (.inr .typedTree)
  | _ => none

/-- The option of a letter. -/
def shortOption? : Char → Option (ValueOption ⊕ Switch)
  | 'e' => some (.inl .expr)
  | 'f' => some (.inl .file)
  | 'm' => some (.inl .home)
  | 'i' => some (.inr .interactive)
  | 't' => some (.inr .trace)
  | _ => none

/-- Reads the letters behind one dash: switches, up to an option that takes what is left as its value. If
    nothing is left, the option waits for the next argument. -/
def readLetters : List Char → CommandLine → Option (CommandLine × Option ValueOption)
  | [], c => some (c, none)
  | letter :: rest, c =>
      match shortOption? letter with
      | some (.inr switch) => readLetters rest (c.withSwitch switch)
      | some (.inl option) =>
          match rest with
          | [] => some (c, some option)
          | '=' :: value => some (c.withValue option (String.ofList value), none)
          | value => some (c.withValue option (String.ofList value), none)
      | none => none

/-- Reads what stands behind two dashes: an option, or an option and its value around an equals sign. -/
def readLong (text : List Char) (c : CommandLine) : Option (CommandLine × Option ValueOption) :=
  let name := String.ofList (text.takeWhile (· ≠ '='))
  match longOption? name, text.dropWhile (· ≠ '=') with
  | some (.inl option), [] => some (c, some option)
  | some (.inl option), _ :: value => some (c.withValue option (String.ofList value), none)
  | some (.inr switch), [] => some (c.withSwitch switch, none)
  | _, _ => none

/-- Reads one argument that starts an option. -/
def readOption (argument : String) (c : CommandLine) : Option (CommandLine × Option ValueOption) :=
  match argument.toList with
  | '-' :: '-' :: text => readLong text c
  | '-' :: letter :: rest => readLetters (letter :: rest) c
  | _ => none

/-- Whether an argument starts with a dash and goes on, and so cannot be a value. -/
def startsOption (argument : String) : Bool :=
  match argument.toList with
  | '-' :: _ :: _ => true
  | _ => false

/-- What is said of an argument that is not understood. -/
def unexpected (argument : String) : String :=
  "unexpected argument '" ++ argument ++ "' found"

/-- Reads the arguments, where an option may wait for its value. Two dashes end the options, and nothing may
    stand behind them. -/
def readArguments : List String → Option ValueOption → CommandLine → Except String CommandLine
  | [], none, c => .ok c
  | [], some _, _ => .error "a value is required"
  | value :: rest, some option, c =>
      if startsOption value then .error "a value is required"
      else readArguments rest none (c.withValue option value)
  | argument :: rest, none, c =>
      if argument = "--" then
        match rest with
        | [] => .ok c
        | next :: _ => .error (unexpected next)
      else
        match readOption argument c with
        | some (c, waiting) => readArguments rest waiting c
        | none => .error (unexpected argument)

/-- Reads the arguments. -/
def ofArguments (arguments : List String) : Except String CommandLine :=
  readArguments arguments none {}

/-! ## Running -/

/-- What a run printed, and its exit code. -/
structure Outcome where
  code : Nat := 0
  output : String := ""
  errors : String := ""

/-- The session that the arguments ask for. -/
def session (c : CommandLine) : Session :=
  Session.new c.home c.tracing c.showsTrees

/-- The sources given as arguments and files; a file that cannot be read ends the run. -/
def sources (c : CommandLine) (read : String → Except Source.ReadError String) :
    Except String (List Source.File) := do
  let given := if c.exprs.isEmpty then [] else [⟨"<expr>", "\n".intercalate c.exprs⟩]
  let files ← c.files.mapM fun name =>
    match read name with
    | .ok text => .ok (⟨name, text⟩ : Source.File)
    | .error cause => .error ("error: " ++ name ++ ": " ++ cause.message ++ "\n")
  return given ++ files

/-- Evaluates sources in order, up to the first failure. What was logged goes to the errors. -/
def evaluateAll : List Source.File → Session → Outcome × Session
  | [], s => ({}, s)
  | file :: rest, s =>
      let (response, s) := s.evaluate file
      let (log, s) := s.takeLog
      match response.report with
      | some report => (⟨1, response.output, log ++ report.render s.sources⟩, s)
      | none =>
          let (outcome, s) := evaluateAll rest s
          (⟨outcome.code, response.output ++ outcome.output, log ++ outcome.errors⟩, s)

/-- What is printed when interactive input ends. -/
def farewell : String := "ctrl-d\n"

/-- A run whose standard input is no terminal: it is the last source, and leaves nothing for interactive
    use. -/
def run (c : CommandLine) (read : String → Except Source.ReadError String) (input : String) : Outcome :=
  match c.sources read with
  | .error message => ⟨1, "", message⟩
  | .ok files =>
      let (outcome, _) := evaluateAll (files ++ [⟨"<stdin>", input⟩]) c.session
      if outcome.code = 0 && c.interactive then
        { outcome with output := outcome.output ++ farewell }
      else outcome

end CommandLine
end UnionTyping
