import UnionTyping.Proofs.Keeping
import UnionTyping.Proofs.Renaming

/-!
# `Proofs.Solidity` — no union is ever without members

A union without members has no alternative, so it can be neither exposed as a union of its parts nor compared.
None is ever made: typing gives solid types where the symbols in scope have solid types
(`firm_disciplined`), what it leaves in scope is solid again, and the operators begin with solid types. So
whatever has been checked before, all bindings and all symbols are solid (`Checked.resting`).
-/

namespace UnionTyping

open Ty

theorem Regime.Keeps.solid {a b : Arena} (h : Regime.solid.Keeps a b) : b.Solid :=
  fun id t ht => in_solid.mp (h.closed ⟨id, ""⟩ t trivial ht)

namespace Typing

open Check

/-- **Nothing in the context is hollow**: bindings, definitions and the types of symbols are solid. -/
structure Firm (c : Context) : Prop where
  solid : c.Solid
  symbols : ∀ s ∈ c.environment.scopes, ∀ e ∈ s.symbols, ∀ t ∈ e.2, t.Solid

/-- Typing restores scopes, and gives solid types. -/
def firm : Discipline Context Ty :=
  scoping Firm Solid

variable {c : Context}

/-- The state after a step of the solver, which leaves the scopes alone. -/
theorem Firm.of_keeps {d : Context} (hc : Firm c) (hstep : restoring.Step c d)
    (hkeeps : Regime.solid.Keeps c.store.arena d.store.arena) : Firm d ∧ firm.Step c d := by
  refine ⟨⟨⟨hkeeps.solid, ?_⟩, ?_⟩, hstep⟩
  · rw [hstep.2]
    exact hc.solid.definitions
  · rw [hstep.1]
    exact hc.symbols

/-! ## Steps of the solver -/

theorem Firm.lookup (hc : Firm c) (l : Locator) :
    Firm (c.typeOf l).2 ∧ firm.Step c (c.typeOf l).2 ∧ ∀ t, (c.typeOf l).1 = .ok t → t.Solid := by
  obtain ⟨arena, hcontext, hgrows, hsame, hfound⟩ := c.typeOf_spec l
  have hkeeps : Regime.solid.Keeps c.store.arena (c.typeOf l).2.store.arena := by
    rw [hcontext]
    exact .of_same hc.solid.holds.closed hgrows hsame
  obtain ⟨hfirm, hstep⟩ := hc.of_keeps (typeOf_restores c l) hkeeps
  refine ⟨hfirm, hstep, fun t ht => ?_⟩
  exact typeOf_solid hc.solid.bindings (Environment.forall_candidates hc.symbols) (congrArg Prod.fst (hfound t ht))

/-- **The solver keeps to solid types.** -/
theorem firm_solving : Solving firm where
  simple _ _ := in_solid.mp in_simple
  func _ _ _ ha hr := in_solid.mp (in_func.mpr ⟨in_solid.mpr ha, in_solid.mpr hr⟩)
  union? _ _ _ hts h := in_solid.mp (.of_union? trivial (fun u hu => in_solid.mpr (hts u hu)) h)
  expose _ _ hc ht := (Arena.Solid.expose hc.solid.bindings ht).1
  note _ _ _ _ hc := ⟨⟨⟨hc.solid.bindings, hc.solid.definitions⟩, hc.symbols⟩, rfl, rfl⟩
  lookup _ l hc := hc.lookup l
  unify _ _ _ hc hl hr :=
    hc.of_keeps ⟨rfl, rfl⟩ (unify_keeps hc.solid.holds (in_solid.mpr hl) (in_solid.mpr hr))
  apply c f a hc hf ha := by
    obtain ⟨hkeeps, hout⟩ := apply_keeps hc.solid.holds (in_solid.mpr hf) (in_solid.mpr ha)
    obtain ⟨hfirm, hstep⟩ : Firm (c.apply f a).2 ∧ firm.Step c (c.apply f a).2 :=
      hc.of_keeps ⟨rfl, rfl⟩ hkeeps
    exact ⟨hfirm, hstep, fun t ht => in_solid.mp (hout t ht)⟩

theorem firm_houses : Houses Firm Solid where
  toSolving := firm_solving
  var := solid_var
  symbols hc := hc.symbols
  rebuild hb hc hbindings hdefs hsymbols :=
    ⟨⟨fun id t ht => hb.solid.bindings id t (hbindings id ▸ ht), hdefs ▸ hc.solid.definitions⟩, hsymbols⟩

/-- **Typing keeps to solid types.** -/
theorem firm_disciplined : Disciplined firm :=
  firm_houses.disciplined

/-! ## Jobs -/

/-- **The state between jobs**: nothing is hollow, and there is one scope. -/
structure Resting (c : Context) : Prop extends Firm c where
  outer : c.environment.outer = []

theorem resting_iff : Resting c ↔ Firm c ∧ c.environment.outer = [] :=
  ⟨fun h => ⟨h.toFirm, h.outer⟩, fun h => ⟨h.1, h.2⟩⟩

/-! ## Contexts that come from checking -/

/-- **In contexts that come from checking nothing is hollow.** -/
theorem Checked.resting (h : Checked c) : Resting c := by
  induction h with
  | new home tracing =>
    refine ⟨⟨⟨fun id t ht => ?_, fun e he => absurd he List.not_mem_nil⟩, ?_⟩, rfl⟩
    · rw [Context.binding?_new] at ht
      cases ht
    · rw [(new_state home tracing).1]
      decide +kernel
  | check _ _ ih => exact resting_iff.mpr (firm_houses.check (resting_iff.mp ih) _)

end Typing

end UnionTyping
