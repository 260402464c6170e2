import UnionTyping.Proofs.Declared
import UnionTyping.Session

/-!
# `Proofs.Sessions` — what a session knows of its declarations

A session is fed with files and lines, whatever they hold. Each is read as a task, or cannot be read
(`Session.task?`). A task makes trials to type names: a module one for the names of each group, up to a group
that fails, and an expression one for the name `it` if it is typed at all. A name stands for what the latest
trial to type it has given, or for nothing if that has failed (`Recalls`). So no name ever has two candidates,
and no scope is left open (`session_recalls_latest`).
-/

namespace UnionTyping

open List Environment

namespace Typing

/-! ## Trials -/

variable {c : Context}

/-- **A trial to type some names**, and what it has given: nothing if it has failed. -/
structure Trial where
  symbols : List Locator
  typed : List TypedDecl

/-- The declaration that a trial gives a symbol. -/
def Trial.gives (a : Trial) (l : Locator) : Option TypedDecl :=
  if l ∈ a.symbols then a.typed.find? fun x => x.symbol = l else none

/-- What the latest trial to type a symbol has given, where later trials come first. -/
def latestTrial (history : List Trial) (l : Locator) : Option TypedDecl :=
  (history.find? fun a => l ∈ a.symbols).bind (·.gives l)

/-- What the latest trial has given that has given the symbol anything. -/
def latestSuccess (history : List Trial) (l : Locator) : Option TypedDecl :=
  history.findSome? (·.gives l)

/-- The trials of groups in a row, up to the first that fails. -/
def groupTrials (home : String) (decls : List Decl) : List (List Nat) → Context → List Trial
  | [], _ => []
  | group :: rest, c =>
      match checkGroup home (groupDecls decls group) c with
      | (.ok done, between) => ⟨groupSymbols home decls group, done⟩ :: groupTrials home decls rest between
      | (.error _, _) => [⟨groupSymbols home decls group, []⟩]

/-- The trials of a task. An expression is not given a name unless it is typed. -/
def Task.trials : Task → Context → List Trial
  | .check (.program p), c =>
      match duplicate? [] p.decls with
      | some _ => []
      | none => groupTrials p.home p.decls (dependencies p.decls).groups (c.addModule p.home)
  | .check (.expression e), c =>
      match checkExpr e c with
      | (.ok x, _) => [⟨[x.symbol], [x]⟩]
      | (.error _, _) => []
  | .ask _, _ => []

/-! ## One trial -/

variable {d : Context}

/-- **What a trial leaves**: its symbols stand for what it has given, and all others are the same. -/
structure Trial.Leaves (a : Trial) (c d : Context) : Prop where
  calm : Calm d
  others : ∀ l, l ∉ a.symbols → SameSymbol c d l
  own : ∀ l ∈ a.symbols, (d.environment.candidates l).map d.expose = (a.gives l).toList.map TypedDecl.type

theorem checkGroup_leaves_ok {home : String} {decls : List Decl} {done : List TypedDecl} (hc : Calm c)
    (hnodup : (decls.map (declared home)).Nodup) (h : checkGroup home decls c = (.ok done, d)) :
    Trial.Leaves ⟨decls.map (declared home), done⟩ c d := by
  have hcalm := hc.checkGroup home decls
  have hisolates := checkGroup_isolates hc.settled home decls
  rw [h] at hcalm hisolates
  obtain ⟨entries, hentries, hestablishes⟩ := checkGroup_ok hc h
  refine ⟨hcalm, fun l hl => hisolates.same hc.settled hl, fun l hl => ?_⟩
  -- the symbol is that of a declaration of the group, so it is given one
  obtain ⟨x, hx, hsymbol⟩ := mem_map.mp ((hestablishes.symbols.trans hentries).symm ▸ hl)
  cases hgives : done.find? fun x => x.symbol = l with
  | none => exact absurd hsymbol (by simpa using find?_eq_none.mp hgives x hx)
  | some y =>
    have hy : y.symbol = l := by simpa using find?_some hgives
    obtain ⟨t, hcandidates, htype⟩ := hestablishes.candidates hc.settled.outer (hentries ▸ hnodup) y
      (mem_of_find?_eq_some hgives)
    rw [hy] at hcandidates
    rw [hcandidates, Trial.gives, if_pos hl, hgives]
    exact congrArg (fun u => [u]) htype

theorem checkGroup_leaves_error {home : String} {decls : List Decl} {e : Diagnostic} (hc : Calm c)
    (hnodup : (decls.map (declared home)).Nodup) (h : checkGroup home decls c = (.error e, d)) :
    Trial.Leaves ⟨decls.map (declared home), []⟩ c d := by
  have hcalm := hc.checkGroup home decls
  have hisolates := checkGroup_isolates hc.settled home decls
  rw [h] at hcalm hisolates
  refine ⟨hcalm, fun l hl => hisolates.same hc.settled hl, fun l hl => ?_⟩
  rw [checkGroup_error hc.settled hnodup h l hl, Trial.gives, if_pos hl]
  rfl

theorem checkExpr_leaves_ok {e : Expr} {x : TypedDecl} (hc : Calm c) (h : checkExpr e c = (.ok x, d)) :
    Trial.Leaves ⟨[x.symbol], [x]⟩ c d := by
  have hcalm := hc.check (.expression e)
  have hisolates := checkExpr_isolates hc.settled e
  rw [show (Input.expression e).check c = (checkExpr e c).2 from rfl] at hcalm
  rw [h] at hcalm hisolates
  obtain ⟨body, after, done, hbody, -, rfl, rfl⟩ := checkExpr_ok h
  obtain ⟨hafter, -, hout⟩ := hc.orderly.infer hbody
  refine ⟨hcalm, fun l hl => hisolates.same hc.settled hl, fun l hl => ?_⟩
  rw [mem_singleton.mp hl, candidates_of_outer hcalm.settled.outer]
  -- the previous expression is forgotten, and the type as it is seen is the only candidate
  have hsole : (((after.forget (.declaration c.home latest)).define (.declaration c.home latest)
      (after.expose body.type)).environment.innermost.get? (.declaration c.home latest)) =
        some [after.expose body.type] :=
    Scope.get?_define_self (Scope.get?_forget_self _ _)
  rw [hsole]
  simp only [Trial.gives, mem_singleton, if_true, find?_cons, decide_true, Option.getD_some,
    Option.toList_some, map_cons, map_nil, List.cons.injEq, and_true]
  exact hafter.expose_expose hout.2

/-! ## Trials in a row -/

/-- **What is known after some trials**: the operators are as they were at first, and any other symbol stands
    for what the latest trial to type it has given. -/
structure Recalls (c : Context) (history : List Trial) : Prop where
  calm : Calm c
  operators : ∀ home tracing l, (Context.new home tracing).environment.isDefined l = true →
    SameSymbol (.new home tracing) c l
  others : ∀ home tracing l, (Context.new home tracing).environment.isDefined l = false →
    (c.environment.candidates l).map c.expose = (latestTrial history l).toList.map TypedDecl.type

theorem new_recalls (home : String) (tracing : Bool) : Recalls (.new home tracing) [] := by
  refine ⟨new_calm home tracing, fun home' tracing' l _ => ⟨rfl, fun t _ => rfl⟩, fun home' tracing' l hl => ?_⟩
  have hundefined := any_eq_false.mp hl _ mem_cons_self
  rw [Bool.not_eq_true, Option.isSome_eq_false_iff, Option.isNone_iff_eq_none] at hundefined
  rw [candidates_of_outer (new_settled home tracing).outer, (new_state home tracing).1,
    ← (new_state home' tracing').1, hundefined]
  rfl

namespace Recalls

variable {history : List Trial}

/-- Where all symbols are the same, as much is known as before. -/
theorem same (h : Recalls c history) (hd : Calm d) (hsame : ∀ l, SameSymbol c d l) : Recalls d history := by
  refine ⟨hd, fun home tracing l hl => (h.operators home tracing l hl).trans (hsame l), fun home tracing l hl => ?_⟩
  rw [← h.others home tracing l hl, (hsame l).1]
  exact map_congr_left (hsame l).2

/-- **One more trial.** -/
theorem trial (h : Recalls c history) {a : Trial} (ha : a.Leaves c d)
    (hnames : ∀ l ∈ a.symbols, Grammar.isName l.name = true) : Recalls d (a :: history) := by
  refine ⟨ha.calm, fun home tracing l hl => ?_, fun home tracing l hl => ?_⟩
  · -- operators are not called by names, so the trial is about others
    have hother : l ∉ a.symbols := by
      intro hmem
      have hname := hnames l hmem
      rw [isName_operator hl] at hname
      cases hname
    exact (h.operators home tracing l hl).trans (ha.others l hother)
  · by_cases hmem : l ∈ a.symbols
    · have hlatest : latestTrial (a :: history) l = a.gives l := by
        simp [latestTrial, hmem]
      rw [hlatest]
      exact ha.own l hmem
    · have hlatest : latestTrial (a :: history) l = latestTrial history l := by
        simp [latestTrial, hmem]
      have hsame := ha.others l hmem
      rw [hlatest, ← h.others home tracing l hl, hsame.1]
      exact map_congr_left hsame.2

/-- **Groups in a row**, up to the first that fails. -/
theorem groups {home : String} {decls : List Decl} {groups : List (List Nat)}
    (hnames : ∀ x ∈ decls, Grammar.isName x.name.name = true)
    (hnodup : ∀ group ∈ groups, (groupSymbols home decls group).Nodup) (h : Recalls c history) :
    Recalls (checkGroups home decls groups c).2 ((groupTrials home decls groups c).reverse ++ history) := by
  induction groups generalizing c history with
  | nil => exact h
  | cons group rest ih =>
    obtain ⟨hgroup, hrest⟩ := forall_mem_cons.mp hnodup
    have hsymbols : ∀ l ∈ groupSymbols home decls group, Grammar.isName l.name = true := by
      intro l hl
      obtain ⟨x, hx, rfl⟩ := mem_map.mp hl
      exact hnames x (mem_groupDecls hx)
    cases hrun : checkGroup home (groupDecls decls group) c with
    | mk r between =>
      cases r with
      | error e =>
        rw [checkGroups_cons_of_error hrun]
        simp only [groupTrials, hrun]
        exact h.trial (checkGroup_leaves_error h.calm hgroup hrun) hsymbols
      | ok done =>
        rw [checkGroups_cons_of_ok hrun]
        simp only [groupTrials, hrun, reverse_cons, append_assoc]
        exact ih hrest (h.trial (checkGroup_leaves_ok h.calm hgroup hrun) hsymbols)

/-- **A task that was read.** -/
theorem run {task : Task} (htask : task.Parsed) (h : Recalls c history) :
    Recalls (task.run c) ((task.trials c).reverse ++ history) := by
  cases task with
  | ask e =>
    refine h.same (h.calm.infer c.home e) fun l => ?_
    exact (infer_isolates h.calm.settled c.home e).same h.calm.settled not_mem_nil
  | check input =>
    cases input with
    | expression e =>
      cases hrun : checkExpr e c with
      | mk r after =>
        have hcalm := h.calm.check (.expression e)
        simp only [Task.run, Task.trials, Input.check, hrun] at hcalm ⊢
        cases r with
        | error e' => exact h.same hcalm (checkExpr_error h.calm.settled hrun)
        | ok x =>
          refine h.trial (checkExpr_leaves_ok h.calm hrun) fun l hl => ?_
          obtain ⟨_, _, _, -, -, rfl, -⟩ := checkExpr_ok hrun
          rw [mem_singleton.mp hl]
          exact (by decide +kernel : Grammar.isName latest = true)
    | program p =>
      obtain ⟨source, home, text, hread⟩ := htask
      have hload : Recalls ((Input.program p).load c) history :=
        h.same (h.calm.load _) (load_same (.program p) c)
      simp only [Task.run, Task.trials, Input.check]
      cases hduplicate : duplicate? [] p.decls with
      | some x =>
        -- the module is loaded, and nothing of it is typed
        rw [checkProgram_of_duplicate hduplicate]
        exact hload
      | none =>
        have hnodup := groupSymbols_nodup p.home (duplicate?_eq_none_iff.mp hduplicate).1
        rw [checkProgram_of_distinct hduplicate]
        exact hload.groups (Grammar.isName_of_parseProgram hread) (nodup_flatMap.mp hnodup).1

end Recalls
end Typing

/-! ## What a session is fed with -/

namespace Session

open Typing

/-- What a session is fed with: a file, or a line of interactive input. -/
inductive Entry where
  | file (file : Source.File)
  | line (text name : String)

/-- The session after an entry. -/
def enter (s : Session) : Entry → Session
  | .file file => (s.evaluate file).2
  | .line text name => (s.evaluateLine text name).2

/-- The session after some entries. -/
def run (s : Session) (entries : List Entry) : Session :=
  entries.foldl enter s

/-- A text read as a module. -/
def moduleTask? (s : Session) (file : Source.File) : Option Task :=
  match parseProgram (s.addSource file).1 s.context.home file.text with
  | .ok p => some (.check (.program p))
  | .error _ => none

/-- A text read as an expression, with which something is to be done. -/
def exprTask? (s : Session) (task : Expr → Task) (file : Source.File) : Option Task :=
  match parseExpr (s.addSource file).1 file.text with
  | .ok e => some (task e)
  | .error _ => none

/-- A command: those that ask for a type are tasks. -/
def commandTask? (s : Session) (text name : String) : Option Task :=
  if (splitCommand text).1 = "type" ∨ (splitCommand text).1 = "t" then
    s.exprTask? .ask ⟨name, Text.trim (splitCommand text).2⟩
  else none

/-- **The task that an entry is read as**, if it can be read and has anything to do. -/
def task? (s : Session) : Entry → Option Task
  | .file file => s.moduleTask? file
  | .line text name =>
      let cs := Text.trimChars text.toList
      if cs = [] then none
      else if cs.head? = some ':' then s.commandTask? (String.ofList cs.tail) name
      else (s.moduleTask? ⟨name, String.ofList cs⟩).or
        (s.exprTask? (fun e => .check (.expression e)) ⟨name, String.ofList cs⟩)

/-- The context once a task is done, if there is one. -/
def afterTask (c : Context) (task : Option Task) : Context :=
  task.elim c (·.run c)

variable {s : Session}

theorem check_context {α : Type} (s : Session) (step : Check α) (print : Session → α → String) :
    (s.check step print).2.context = (step s.context).2 := by
  unfold check
  cases step s.context with
  | mk r after => cases r <;> rfl

theorem addSource_context (s : Session) (file : Source.File) : (s.addSource file).2.context = s.context :=
  rfl

theorem evaluateProgram_context (s : Session) (p : Program) :
    (s.evaluateProgram p).2.context = (checkProgram p s.context).2 :=
  check_context _ _ _

theorem evaluate_context (s : Session) (file : Source.File) :
    (s.evaluate file).2.context = afterTask s.context (s.moduleTask? file) := by
  unfold evaluate moduleTask?
  rw [← s.addSource_context file]
  obtain ⟨id, s'⟩ := s.addSource file
  simp only []
  cases parseProgram id s'.context.home file.text with
  | ok p => exact s'.evaluateProgram_context p
  | error e => rfl

theorem typeCommand_context (s : Session) (file : Source.File) :
    (s.typeCommand file).2.context = afterTask s.context (s.exprTask? .ask file) := by
  unfold typeCommand exprTask?
  rw [← s.addSource_context file]
  obtain ⟨id, s'⟩ := s.addSource file
  simp only []
  cases parseExpr id file.text with
  | ok e => exact check_context s' _ _
  | error e => rfl

theorem evaluateCommand_context (s : Session) (text name : String) :
    (s.evaluateCommand text name).2.context = afterTask s.context (s.commandTask? text name) := by
  unfold evaluateCommand commandTask?
  simp only []
  split
  · rename_i hcommand
    rw [if_pos (Or.inl hcommand)]
    exact s.typeCommand_context _
  · rename_i hcommand
    rw [if_pos (Or.inr hcommand)]
    exact s.typeCommand_context _
  -- all other commands leave the context alone
  · rename_i hcommand
    rw [if_neg (by rw [hcommand]; decide)]
    rfl
  · rename_i htype ht _
    rw [if_neg (by rintro (h | h); exacts [htype h, ht h])]
    rfl

theorem evaluateText_context (s : Session) (file : Source.File) : (s.evaluateText file).2.context =
    afterTask s.context ((s.moduleTask? file).or (s.exprTask? (fun e => .check (.expression e)) file)) := by
  unfold evaluateText moduleTask? exprTask?
  rw [← s.addSource_context file]
  obtain ⟨id, s'⟩ := s.addSource file
  simp only []
  cases parseProgram id s'.context.home file.text with
  | ok p => exact s'.evaluateProgram_context p
  | error _ =>
    cases parseExpr id file.text with
    | ok e => exact check_context s' _ _
    | error e => rfl

/-- **An entry does what it is read as**, and nothing if it cannot be read. -/
theorem enter_context (s : Session) (entry : Entry) :
    (s.enter entry).context = afterTask s.context (s.task? entry) := by
  cases entry with
  | file file => exact s.evaluate_context file
  | line text name =>
    simp only [enter, evaluateLine, task?]
    split
    · rename_i hblank
      rw [if_pos hblank]
      rfl
    · rename_i command hcommand
      rw [hcommand, if_neg (cons_ne_nil _ _), if_pos head?_cons]
      exact s.evaluateCommand_context _ name
    · rename_i hblank hcommand
      have hhead : (Text.trimChars text.toList).head? ≠ some ':' := by
        intro hhead
        obtain ⟨command, hcs⟩ := head?_eq_some_iff.mp hhead
        exact hcommand command hcs
      rw [if_neg hblank, if_neg hhead]
      exact s.evaluateText_context _

theorem parsed_of_moduleTask? {file : Source.File} {task : Task} (h : s.moduleTask? file = some task) :
    task.Parsed := by
  unfold moduleTask? at h
  split at h
  · rename_i p hread
    cases h
    exact ⟨_, _, _, hread⟩
  · cases h

theorem parsed_of_exprTask? {file : Source.File} {task : Expr → Task} {t : Task}
    (h : s.exprTask? task file = some t)
    (htask : ∀ e, (∃ source text, parseExpr source text = .ok e) → (task e).Parsed) : t.Parsed := by
  unfold exprTask? at h
  split at h
  · rename_i e hread
    cases h
    exact htask e ⟨_, _, hread⟩
  · cases h

theorem parsed_of_task? {entry : Entry} {task : Task} (h : s.task? entry = some task) : task.Parsed := by
  cases entry with
  | file file => exact parsed_of_moduleTask? h
  | line text name =>
    simp only [task?] at h
    split at h
    · cases h
    split at h
    · unfold commandTask? at h
      split at h
      · exact parsed_of_exprTask? h fun _ he => he
      · cases h
    · rcases Option.or_eq_some_iff.mp h with h | ⟨-, h⟩
      · exact parsed_of_moduleTask? h
      · exact parsed_of_exprTask? h fun _ he => he

/-! ## Sessions -/

/-- **Whatever a new session is fed with, its context is one that sessions reach.** -/
theorem run_reached (home : String) (tracing showsTrees : Bool) (entries : List Entry) :
    Reached ((Session.new home tracing showsTrees).run entries).context := by
  suffices hrun : ∀ s : Session, Reached s.context → Reached (s.run entries).context by
    exact hrun _ (.new home tracing)
  intro s hs
  induction entries generalizing s with
  | nil => exact hs
  | cons entry rest ih =>
    refine ih (s.enter entry) ?_
    rw [enter_context, afterTask]
    cases htask : s.task? entry with
    | none => exact hs
    | some task => exact .run hs (parsed_of_task? htask)

/-- The trials of an entry. -/
def trials (s : Session) (entry : Entry) : List Trial :=
  (s.task? entry).elim [] (·.trials s.context)

/-- **The trials of all entries**, later ones first. -/
def history (s : Session) : List Entry → List Trial
  | [] => []
  | entry :: rest => (s.enter entry).history rest ++ (s.trials entry).reverse

theorem enter_recalls {history : List Trial} (h : Recalls s.context history) (entry : Entry) :
    Recalls (s.enter entry).context ((s.trials entry).reverse ++ history) := by
  rw [enter_context]
  unfold afterTask trials
  cases htask : s.task? entry with
  | none => exact h
  | some task => exact h.run (parsed_of_task? htask)

/-- **A session recalls what the latest trials have given**, whatever it is fed with. -/
theorem run_recalls {history : List Trial} (h : Recalls s.context history) (entries : List Entry) :
    Recalls (s.run entries).context (s.history entries ++ history) := by
  induction entries generalizing s history with
  | nil => exact h
  | cons entry rest ih =>
    rw [Session.history, append_assoc]
    exact ih (enter_recalls h entry)

end Session

namespace Typing

/-- What the latest trial has given, if anything, is what the latest success has. -/
theorem latestSuccess_of_latestTrial {history : List Trial} {l : Locator} {x : TypedDecl}
    (h : latestTrial history l = some x) : latestSuccess history l = some x := by
  induction history with
  | nil => cases h
  | cons a rest ih =>
    by_cases hmem : l ∈ a.symbols
    · simp only [latestTrial, find?_cons, hmem, decide_true, Option.bind_some] at h
      simp [latestSuccess, h]
    · simp only [latestTrial, find?_cons, hmem, decide_false] at h
      have hnone : a.gives l = none := if_neg hmem
      simp only [latestSuccess, findSome?_cons, hnone]
      exact ih h

/-- **A session knows each name by its latest typing.** Whatever a new session is fed with, files and lines,
    commands, what cannot be read and what cannot be typed, there is then one scope, and nothing is pinned in it.
    The operators have the candidates that they had at first. Any other symbol has what the latest trial to type
    it has given, and nothing if that has failed: at most one candidate, of the type that its latest success has
    found. -/
theorem session_recalls_latest (home : String) (tracing showsTrees : Bool) (entries : List Session.Entry) :
    let s := Session.new home tracing showsTrees
    let c := (s.run entries).context
    c.environment.depth = 1 ∧ c.environment.innermost.pinned = [] ∧
    (∀ l, (Context.new home tracing).environment.isDefined l = true → SameSymbol (.new home tracing) c l) ∧
    ∀ l, (Context.new home tracing).environment.isDefined l = false →
      (c.environment.candidates l).map c.expose = (latestTrial (s.history entries) l).toList.map TypedDecl.type ∧
      (c.environment.candidates l).length ≤ 1 ∧
      ∀ t ∈ c.environment.candidates l,
        ∃ x, latestSuccess (s.history entries) l = some x ∧ c.expose t = x.type := by
  intro s c
  have hrecalls : Recalls c (s.history entries) := by
    have h := Session.run_recalls (s := s) (new_recalls home tracing) entries
    rw [List.append_nil] at h
    exact h
  have hsettled := hrecalls.calm.settled
  have hdepth : c.environment.depth = 1 := by
    rw [Environment.depth, Environment.scopes, hsettled.outer]
    rfl
  refine ⟨hdepth, hsettled.pinned, hrecalls.operators home tracing, fun l hl => ?_⟩
  have hlatest := hrecalls.others home tracing l hl
  refine ⟨hlatest, ?_, fun t ht => ?_⟩
  · have hlength := congrArg List.length hlatest
    rw [List.length_map, List.length_map] at hlength
    rw [hlength]
    cases latestTrial (s.history entries) l with
    | none => exact Nat.zero_le 1
    | some x => exact Nat.le_refl 1
  · have hmem : c.expose t ∈ (latestTrial (s.history entries) l).toList.map TypedDecl.type :=
      hlatest ▸ List.mem_map_of_mem ht
    obtain ⟨x, hx, htype⟩ := List.mem_map.mp hmem
    exact ⟨x, latestSuccess_of_latestTrial (Option.mem_toList.mp hx), htype.symm⟩

-- after a name is declared, used, and declared again in a way that fails
example :
    let c := ((Session.new "main" false false).run [.line "f = x -> x" "1", .line "f 1" "2", .line "f = 1 2" "3",
      .line ":type f" "4"]).context
    c.environment.candidates (.declaration "main" "f") = [] ∧
      (c.environment.candidates (.declaration "main" "it")).map c.expose = [.integer] := by
  decide +kernel

end Typing
end UnionTyping
