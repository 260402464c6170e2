import UnionTyping.Proofs.WellFormed

/-!
# `Proofs.Transaction` — all or nothing

A unification that does not succeed leaves every binding as it was. One that succeeds keeps the bindings
there were, and it hands out no variable. An application that fails leaves every binding as it was, too;
the variables that it handed out are unbound.

The last point has a condition. An application that found matches fails if their results have no
alternative between them, and it does not undo what it bound then. This takes a union without members,
which the solver never builds. Types without such unions are called *solid*, and they stay so
(`Regime.solid`). It is not enough that the types at hand are solid: `hollow_results_leave_bindings` has a
binding with such a union in it, and then a definition.
-/

namespace UnionTyping

/-! ## Solid types -/

/-- No part of the type is a union without members. -/
def Ty.Solid (t : Ty) : Prop :=
  Ty.union [] ∉ t.subterms

instance (t : Ty) : Decidable t.Solid :=
  inferInstanceAs (Decidable (Ty.union [] ∉ t.subterms))

/-- All variables and constructors, but no union without members. -/
def Fragment.solid : Fragment := ⟨fun _ => True, True, False, True, True⟩

theorem Ty.in_solid {t : Ty} : t.In .solid ↔ t.Solid := by
  constructor
  · exact fun h hnil => (h (.union []) hnil).2 rfl
  · intro h u hu
    cases u with
    | union ms => exact ⟨trivial, fun hnil => h (hnil ▸ hu)⟩
    | _ => trivial

/-- A solid context has solid bindings and definitions. -/
structure Context.Solid (c : Context) : Prop where
  bindings : ∀ id t, c.store.arena.binding? id = some t → t.Solid
  definitions : ∀ e ∈ c.definitions.entries, e.2.Solid

/-- Solid types, whatever the arena. -/
def Regime.solid : Regime where
  fragment _ := .solid
  base := 0
  choices _ := trivial
  grow _ := ⟨fun _ h => h, id, id, id, id⟩
  old _ _ _ := trivial
  fresh _ _ := trivial
  placeholders _ h := h
  steady _ := rfl

theorem Context.Solid.holds {c : Context} (hc : c.Solid) : Regime.solid.Holds c.definitions c.store.arena :=
  ⟨Nat.zero_le _, fun v t _ ht => Ty.in_solid.mpr (hc.bindings v.id t ht),
    fun _ e he => (Ty.in_solid.mpr (hc.definitions e he)).definesIn⟩

/-! ## Failed applications -/

/-- **A failed application leaves every binding as it was**, where no union is without members: results
    that were found then have an alternative between them. -/
theorem binding?_apply_error {c : Context} (hc : c.Solid) {function argument : Ty} (hf : function.Solid)
    (ha : argument.Solid) {e : InferenceError} (h : (c.apply function argument).1 = .error e)
    (id : Nat) : (c.apply function argument).2.store.arena.binding? id = c.store.arena.binding? id := by
  change (c.store.apply c.definitions function argument).1 = .error e at h
  change (c.store.apply c.definitions function argument).2.arena.binding? id = _
  obtain ⟨_, _, ⟨_, _, hsame | ⟨after, hstep, hundone⟩⟩ | ⟨results, hne, hresults, hok⟩⟩ :=
    (Regime.solid.applying _).outcome hc.holds (Ty.in_solid.mpr hf) (Ty.in_solid.mpr ha)
  · exact hsame id
  · rw [hundone]
    exact Arena.binding?_rollback hstep.1 id
  · obtain ⟨t, ht⟩ := List.exists_mem_of_ne_nil results hne
    cases hunion : Ty.union? results with
    | some u =>
      rw [(hok u).mpr hunion] at h
      cases h
    | none =>
      exact absurd (Ty.union?_eq_none_iff.mp hunion t ht) ((hresults t ht).alternatives_ne_nil not_false)

/-! ## All or nothing -/

/-- **Solving is transactional.** What does not unify leaves every binding as it was; what unifies keeps
    every binding there was, and so binds unbound variables only; no unification hands out a variable. A
    failed application leaves every binding as it was, so what it handed out is unbound, provided that there
    is no union without members in the two types, in the bindings and in the definitions. Neither touches the
    symbols in scope or the definitions. -/
theorem solving_is_transactional (c : Context) (l r : Ty) :
    ((c.unify l r).1 ≠ .unified →
      ∀ id, (c.unify l r).2.store.arena.binding? id = c.store.arena.binding? id) ∧
    ((c.unify l r).1 = .unified → ∀ id, c.store.arena.binding? id = none ∨
      (c.unify l r).2.store.arena.binding? id = c.store.arena.binding? id) ∧
    ((c.unify l r).2.store.arena.size = c.store.arena.size ∧
      ∀ id, (c.unify l r).2.store.arena.name? id = c.store.arena.name? id) ∧
    (c.Solid → l.Solid → r.Solid → ∀ e, (c.apply l r).1 = .error e →
      ∀ id, (c.apply l r).2.store.arena.binding? id = c.store.arena.binding? id) ∧
    ((c.unify l r).2.environment = c.environment ∧ (c.unify l r).2.definitions = c.definitions) ∧
    (c.apply l r).2.environment = c.environment ∧ (c.apply l r).2.definitions = c.definitions := by
  obtain ⟨hbinds, hfailed⟩ := c.store.unify_binds c.definitions l r
  refine ⟨fun h id => ?_, fun _ id => ?_, ⟨hbinds.size_eq, hbinds.name?⟩,
    fun hc hl hr e he id => binding?_apply_error hc hl hr he id, ⟨rfl, rfl⟩, rfl, rfl⟩
  · exact congrArg (fun a : Arena => a.binding? id) (hfailed h)
  · cases ht : c.store.arena.binding? id with
    | none => exact Or.inl rfl
    | some t => exact Or.inr (hbinds.grows.binding? ht)

/-- A function with two overloads is applied to an argument that fits neither, although a variable is bound
    on the way: it is unbound again, and so are the two that were handed out. -/
theorem solving_is_transactional_overloaded :
    let c := (Context.new "main" false).fresh.2
    let function := Ty.union [.func (.func .integer .string) .integer, .func .double .double]
    let argument := Ty.func (.var ⟨2, "t2"⟩) .boolean
    (c.apply function argument).1.isOk = false ∧
      (c.apply function argument).2.store.arena.size = 5 ∧
      ∀ id, (c.apply function argument).2.store.arena.binding? id = c.store.arena.binding? id := by
  intro c function argument
  have hc : c.Solid := by
    refine ⟨fun id t ht => ?_, fun e he => absurd he List.not_mem_nil⟩
    have hnone : c.store.arena.binding? id = none :=
      (Arena.binding?_fresh _ id).trans (Context.binding?_new "main" false id)
    rw [hnone] at ht
    cases ht
  have hfailed : (c.apply function argument).1.isOk = false := by decide +kernel
  cases he : (c.apply function argument).1 with
  | ok t =>
      rw [he] at hfailed
      cases hfailed
  | error e =>
      exact ⟨rfl, by decide +kernel, (solving_is_transactional c function argument).2.2.2.1 hc
        (by decide +kernel) (by decide +kernel) e he⟩

/-- **A failed application may leave bindings behind**, although the context is well-formed and owns both types,
    which are solid. The argument is accepted, but the result has no alternative: it is a variable that is
    bound to a union without members, or that is bound to one on the way, out of a definition. -/
theorem hollow_results_leave_bindings :
    (let c := ((Context.new "main" false).fresh.2.fresh.2.unify (.var ⟨2, "t2"⟩) (.union [])).2
      let function := Ty.func (.var ⟨3, "t3"⟩) (.var ⟨2, "t2"⟩)
      c.WellFormed ∧ c.definitions.entries = [] ∧ c.store.arena.Owns function ∧ function.Solid ∧
        Ty.integer.Solid ∧ (c.apply function .integer).1.isOk = false ∧ c.store.arena.binding? 3 = none ∧
        (c.apply function .integer).2.store.arena.binding? 3 = some .integer) ∧
    (let c : Context := { (Context.new "main" false).fresh.2 with
        definitions := ⟨[("Box", .record "Box" [] [("v", .union [])])]⟩ }
      let function := Ty.func (.record "Box" [] [("v", .var ⟨2, "t2"⟩)]) (.var ⟨2, "t2"⟩)
      let argument := Ty.recursive "Box" []
      c.WellFormed ∧ c.store.arena.bindings = [] ∧ c.store.arena.Owns function ∧ function.Solid ∧
        argument.Solid ∧ (c.apply function argument).1.isOk = false ∧
        (c.apply function argument).2.store.arena.binding? 2 = some (.union [])) := by
  have hfresh : (Context.new "main" false).fresh.2.Reachable := .fresh (.new _ _)
  constructor
  · have hbound := hfresh.fresh.wellFormed.unify (l := .var ⟨2, "t2"⟩) (r := .union []) (by decide +kernel)
      (by decide +kernel)
    refine ⟨hbound, ?_⟩
    decide +kernel
  · have hregistered : Context.Reachable { (Context.new "main" false).fresh.2 with
        definitions := ⟨[("Box", .record "Box" [] [("v", .union [])])]⟩ } :=
      .register (t := .record "Box" [] [("v", .union [])]) hfresh (by decide +kernel) rfl
    refine ⟨hregistered.wellFormed, ?_⟩
    decide +kernel

end UnionTyping
