import UnionTyping.Proofs.Orderly

/-!
# `Proofs.Reached` — the contexts that a session can reach

Beside checking modules and expressions, a session can be asked for the type of an expression, which declares
nothing. What is reached by such tasks in a row, successful or not, is calm: it is settled, and nothing in it
is hollow (`Reached.calm`). A task binds no variable that was handed out before it began (`Task.run_advances`).
-/

namespace UnionTyping
namespace Typing

/-! ## Calm contexts -/

variable {c : Context}

/-- **The state between tasks**: one scope, nothing pinned, owned bindings without cycles, nothing hollow. -/
structure Calm (c : Context) : Prop where
  settled : Settled c
  resting : Resting c

theorem new_calm (home : String) (tracing : Bool) : Calm (.new home tracing) :=
  ⟨new_settled home tracing, (Checked.new home tracing).resting⟩

namespace Calm

variable (hc : Calm c)
include hc

/-- A calm context is one in which something can be typed. -/
theorem orderly : Orderly c :=
  hc.settled.orderly hc.resting.toFirm

/-- Taking in an input changes neither bindings nor symbols, so the context stays calm. -/
theorem load (input : Input) : Calm (input.load c) :=
  ⟨hc.settled.load input, resting_iff.mpr (firm_houses.load (resting_iff.mp hc.resting) input)⟩

/-- Symbols can be forgotten before they are declared anew. -/
theorem forgetAll (symbols : List Locator) : Calm (symbols.foldl Context.forget c) :=
  ⟨hc.settled.forgetAll.settled, resting_iff.mpr (firm_houses.forgetAll (resting_iff.mp hc.resting) symbols)⟩

/-- Telling a type leaves the context calm, also if the expression has none. -/
theorem infer (home : String) (e : Expr) : Calm (Typing.infer home e c).2 :=
  ⟨(infer_isolates hc.settled home e).settled, resting_iff.mpr (firm_houses.infer (resting_iff.mp hc.resting) home e)⟩

theorem checkGroup (home : String) (decls : List Decl) : Calm (Typing.checkGroup home decls c).2 :=
  ⟨(checkGroup_isolates hc.settled home decls).settled,
    resting_iff.mpr (firm_houses.checkGroup (resting_iff.mp hc.resting) home decls)⟩

/-- **Checking an input leads from calm to calm.** -/
theorem check (input : Input) : Calm (input.check c) :=
  ⟨(input.check_isolates hc.settled).2.settled, resting_iff.mpr (firm_houses.check (resting_iff.mp hc.resting) input)⟩

end Calm

/-! ## Tasks -/

/-- What a session is given to do: to check an input, or to tell the type of an expression. -/
inductive Task where
  | check (input : Input)
  | ask (e : Expr)

namespace Task

/-- It was read from a text. -/
def Parsed : Task → Prop
  | .check input => input.Parsed
  | .ask e => ∃ source text, parseExpr source text = .ok e

/-- The context once the task is done, successfully or not. -/
def run : Task → Context → Context
  | .check input, c => input.check c
  | .ask e, c => (infer c.home e c).2

/-- Tasks lead from calm to calm, whether or not they succeed. -/
theorem run_calm (task : Task) (hc : Calm c) : Calm (task.run c) := by
  cases task with
  | check input => exact hc.check input
  | ask e => exact hc.infer c.home e

/-- **A task binds only variables of its own.** -/
theorem run_advances (task : Task) (hc : Settled c) :
    c.store.arena.Advances c.store.arena.size (task.run c).store.arena := by
  cases task with
  | check input => exact (input.check_isolates hc).2.advances
  | ask e => exact (infer_isolates hc c.home e).advances

end Task

/-- **The contexts that a session reaches** from a new one with what was read from texts. -/
inductive Reached : Context → Prop where
  | new (home : String) (tracing : Bool) : Reached (.new home tracing)
  | run {c : Context} {task : Task} : Reached c → task.Parsed → Reached (task.run c)

/-- **Whatever a session is given to do, it is calm between its tasks.** The induction is on the tasks. -/
theorem Reached.calm (h : Reached c) : Calm c := by
  induction h with
  | new home tracing => exact new_calm home tracing
  | run _ _ ih => exact Task.run_calm _ ih

/-! ## Kinds of types in a session -/

variable {P : Ty → Prop}

/-- **The state between tasks**: calm, and everything of the kind. -/
structure KeepingCalm (P : Ty → Prop) (c : Context) : Prop extends Calm c where
  keeping : Keeping P c

namespace KeepingCalm

variable (hc : KeepingCalm P c)
include hc

theorem housed : Keeping P c ∧ c.environment.outer = [] :=
  ⟨hc.keeping, hc.settled.outer⟩

theorem load (input : Input) : KeepingCalm P (input.load c) := by
  obtain ⟨hstore, henv, -⟩ := input.load_state c
  exact ⟨hc.toCalm.load input, hstore ▸ hc.keeping.bindings, henv ▸ hc.keeping.symbols⟩

variable (hP : Kind P)
include hP

theorem forgetAll (symbols : List Locator) : KeepingCalm P (symbols.foldl Context.forget c) :=
  ⟨hc.toCalm.forgetAll symbols, (hP.houses.forgetAll hc.housed symbols).1⟩

theorem checkGroup (home : String) (decls : List Decl) : KeepingCalm P (Typing.checkGroup home decls c).2 :=
  ⟨hc.toCalm.checkGroup home decls, (hP.houses.checkGroup hc.housed home decls).1⟩

theorem infer (home : String) (e : Expr) : KeepingCalm P (Typing.infer home e c).2 :=
  ⟨hc.toCalm.infer home e, (hP.houses.infer hc.housed home e).1⟩

theorem check (input : Input) : KeepingCalm P (input.check c) :=
  ⟨hc.toCalm.check input, (hP.houses.check hc.housed input).1⟩

end KeepingCalm

/-- The operators are the symbols of a new context, whatever its module. -/
theorem KeepingCalm.new (hsymbols : ∀ s ∈ (Context.new "" false).environment.scopes, ∀ e ∈ s.symbols, ∀ t ∈ e.2, P t)
    (home : String) (tracing : Bool) : KeepingCalm P (.new home tracing) := by
  refine ⟨new_calm home tracing, fun id t ht => ?_, ?_⟩
  · rw [Context.binding?_new] at ht
    cases ht
  · rw [(new_state home tracing).1]
    exact hsymbols

/-- **In the contexts that a session reaches everything is of the kind** that the operators are of. -/
theorem Kind.reached (hP : Kind P)
    (hsymbols : ∀ s ∈ (Context.new "" false).environment.scopes, ∀ e ∈ s.symbols, ∀ t ∈ e.2, P t)
    (h : Reached c) : KeepingCalm P c := by
  induction h with
  | new home tracing => exact .new hsymbols home tracing
  | @run c task _ _ ih =>
    cases task with
    | check input => exact ih.check hP input
    | ask e => exact ih.infer hP c.home e

end Typing
end UnionTyping
