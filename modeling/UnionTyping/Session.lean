import UnionTyping.Diagnostic.Report
import UnionTyping.Grammar.Line
import UnionTyping.Text.Blank
import UnionTyping.Typing.Program

/-!
# `Session` — source after source, line after line

A session keeps the context and every source seen so far. It evaluates whole modules, and single lines of
interactive input: a command behind a colon, declarations, or an expression. What is printed and what is
reported is given back as text.
-/

namespace UnionTyping

/-- A context and the sources it was fed with. -/
structure Session where
  context : Context
  sources : Source.Library := {}
  /-- Whether the typed tree of every declaration is printed below its signature. -/
  showsTrees : Bool := false

/-- What an input led to: the text printed, and a report if it failed. -/
structure Response where
  output : String := ""
  report : Option Report := none

namespace Session

/-- A session for a module. -/
def new (home : String) (tracing showsTrees : Bool) : Session :=
  { context := Context.new home tracing, showsTrees }

/-- The failure of an input. -/
def failure (d : Diagnostic) : Response :=
  ⟨"", some (Report.single d)⟩

/-- A declaration as it is printed once it is typed. -/
def announce (s : Session) (d : TypedDecl) : String :=
  let a := s.context.store.arena
  (d.signature a).painted ++ "\n" ++ if s.showsTrees then (d.body.tree a 0).painted else ""

/-- Runs a step of typing and prints what it gives. -/
def check {α : Type} (s : Session) (step : Check α) (print : Session → α → String) :
    Response × Session :=
  match step s.context with
  | (.ok a, context) =>
      let s := { s with context }
      (⟨print s a, none⟩, s)
  | (.error d, context) => (failure d, { s with context })

/-- The lines of the records kept so far, and the session without them. -/
def takeLog (s : Session) : String × Session :=
  let (records, context) := s.context.takeRecords
  (String.join (records.map fun r => r.text ++ "\n"), { s with context })

/-- Adds a source text. -/
def addSource (s : Session) (file : Source.File) : Nat × Session :=
  let (id, sources) := s.sources.add file
  (id, { s with sources })

/-! ## Modules -/

/-- Types a module that was read, and prints its signatures. -/
def evaluateProgram (s : Session) (p : Program) : Response × Session :=
  s.check (Typing.checkProgram p) fun s typed => String.join (typed.decls.map s.announce)

/-- Types a whole source text as a module. -/
def evaluate (s : Session) (file : Source.File) : Response × Session :=
  let (id, s) := s.addSource file
  match parseProgram id s.context.home file.text with
  | .ok p => s.evaluateProgram p
  | .error e => (failure (e.diagnostic id), s)

/-! ## Lines -/

/-- Prints the type of an expression without declaring it. -/
def typeCommand (s : Session) (file : Source.File) : Response × Session :=
  let (id, s) := s.addSource file
  match parseExpr id file.text with
  | .ok e =>
      s.check (Typing.infer s.context.home e) fun s typed =>
        (s.context.store.arena.generalized typed.type).painted ++ "\n"
  | .error e => (failure (e.diagnostic id), s)

/-- The declarations of the session's module, by name. -/
def declarations (s : Session) : List Locator :=
  let own := s.context.environment.locators.filter fun
    | .declaration home _ => home == s.context.home
    | .variable _ => false
  own.mergeSort fun l k => decide (l.name ≤ k.name)

/-- Prints the declarations of the session's module with their types. -/
def environmentCommand (s : Session) : Response :=
  let line (l : Locator) (t : Ty) : String :=
    l.name ++ " : " ++ (s.context.store.arena.generalized t).painted ++ "\n"
  ⟨String.join (s.declarations.flatMap fun l => (s.context.environment.candidates l).map (line l)), none⟩

/-- The part of a text before its first space, and the part behind it. -/
def splitCommand (text : String) : String × String :=
  let cs := text.toList
  (String.ofList (cs.takeWhile (· ≠ ' ')), String.ofList ((cs.dropWhile (· ≠ ' ')).drop 1))

/-- Evaluates a command. -/
def evaluateCommand (s : Session) (text name : String) : Response × Session :=
  let (command, rest) := splitCommand text
  match command with
  | "type" => s.typeCommand ⟨name, Text.trim rest⟩
  | "t" => s.typeCommand ⟨name, Text.trim rest⟩
  | "env" => (s.environmentCommand, s)
  | _ => (failure (Diagnostic.error ("unknown command `" ++ command ++ "`")), s)

/-- Evaluates declarations or, if the text is no module, an expression. -/
def evaluateText (s : Session) (file : Source.File) : Response × Session :=
  let (id, s) := s.addSource file
  match parseProgram id s.context.home file.text with
  | .ok p => s.evaluateProgram p
  | .error _ =>
      match parseExpr id file.text with
      | .ok e => s.check (Typing.checkExpr e) fun s d => s.announce d
      | .error e => (failure (e.diagnostic id), s)

/-- Evaluates one line of interactive input; its text is kept as a source of the given name. -/
def evaluateLine (s : Session) (line name : String) : Response × Session :=
  match Text.trimChars line.toList with
  | [] => ({}, s)
  | ':' :: command => s.evaluateCommand (String.ofList command) name
  | text => s.evaluateText ⟨name, String.ofList text⟩

end Session
end UnionTyping
