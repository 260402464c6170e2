import UnionTyping.Solve.Builtin
import UnionTyping.Proofs.Application

/-!
# `Proofs.WellFormed` — bindings never become cyclic

An arena *owns* a type if every variable of it was handed out by the arena under the name it carries. A
context is well-formed if its arena owns all bindings and they have no cycle. Unification and application
keep contexts well-formed as long as the types they are given are owned, and so are the definitions that
placeholders unfold to (`solving_makes_no_cycle`). In every context that can be reached, exposing a type
therefore ends, and leaves no bound variable.

What is registered as a definition matters: `unowned_definition_spreads` shows that an unowned variable in
one gets into a binding.
-/

namespace UnionTyping

open Regime Context

/-! ## Ownership -/

namespace Arena

/-- Every variable of the type was handed out, under the name it carries. -/
def Owns (a : Arena) (t : Ty) : Prop :=
  ∀ v ∈ t.vars, a.name? v.id = some v.name

instance (a : Arena) (t : Ty) : Decidable (a.Owns t) :=
  inferInstanceAs (Decidable (∀ v ∈ t.vars, a.name? v.id = some v.name))

/-- **A well-formed arena** owns its bindings, and they have no cycle. -/
structure WellFormed (a : Arena) : Prop where
  owned : ∀ id t, a.binding? id = some t → a.Owns t
  acyclic : a.Acyclic

/-- The type is owned, apart from its own parameters. -/
def OwnsDefinition (a : Arena) (t : Ty) : Prop :=
  ∀ v ∈ t.vars, a.name? v.id = some v.name ∨ Ty.var v ∈ t.arguments

instance (a : Arena) (t : Ty) : Decidable (a.OwnsDefinition t) :=
  inferInstanceAs (Decidable (∀ v ∈ t.vars, a.name? v.id = some v.name ∨ Ty.var v ∈ t.arguments))

end Arena

/-- **A well-formed context** has a well-formed arena, which owns the definitions. -/
structure Context.WellFormed (c : Context) : Prop where
  arena : c.store.arena.WellFormed
  definitions : ∀ e ∈ c.definitions.entries, c.store.arena.OwnsDefinition e.2

/-- The owned variables from a number on, with all constructors. -/
def Regime.owned (base : Nat) : Regime where
  fragment a := ⟨fun v => a.name? v.id = some v.name ∧ base ≤ v.id, True, True, True, True⟩
  base := base
  choices _ := trivial
  grow h := ⟨fun v hv => ⟨by rw [h.name? _ (Arena.lt_size_of_name? hv.1), hv.1], hv.2⟩,
    id, id, id, id⟩
  old h hv hlt := ⟨by rw [← h.name? _ hlt, hv.1], hv.2⟩
  fresh a hbase := ⟨a.name?_fresh_self, hbase⟩
  placeholders _ h := h
  steady h := by simp [h]

namespace Regime

theorem owned_coherent (base : Nat) (a : Arena) : ((owned base).fragment a).Coherent := by
  rintro ⟨i, n⟩ ⟨j, m⟩ ⟨hv, _⟩ ⟨hw, _⟩ rfl
  simp only [hv, Option.some.injEq] at hw
  rw [hw]

theorem in_owned {base : Nat} {a : Arena} {t : Ty} :
    t.In ((owned base).fragment a) ↔ a.Owns t ∧ ∀ v ∈ t.vars, base ≤ v.id :=
  ⟨fun h => ⟨fun _ hv => (h.vars hv).1, fun _ hv => (h.vars hv).2⟩,
    fun h => Ty.in_of_vars trivial trivial trivial trivial fun v hv => ⟨h.1 v hv, h.2 v hv⟩⟩

theorem in_owned_zero {a : Arena} {t : Ty} : t.In ((owned 0).fragment a) ↔ a.Owns t :=
  in_owned.trans ⟨fun h => h.1, fun h => ⟨h, fun _ _ => Nat.zero_le _⟩⟩

theorem closed_owned_zero {a : Arena} :
    a.Closed ((owned 0).fragment a) ↔ ∀ id t, a.binding? id = some t → a.Owns t := by
  constructor
  · intro h id t ht
    obtain ⟨n, hn⟩ := Arena.name?_of_lt (Arena.lt_size_of_binding? ht)
    exact in_owned_zero.mp (h ⟨id, n⟩ t ⟨hn, Nat.zero_le _⟩ ht)
  · exact fun h v t _ ht => in_owned_zero.mpr (h v.id t ht)

end Regime

section WellFormedness

variable {c : Context}

theorem Context.WellFormed.holds (hc : c.WellFormed) : (owned 0).Holds c.definitions c.store.arena :=
  ⟨Nat.zero_le _, closed_owned_zero.mpr hc.arena.owned,
    fun _ e he => Ty.in_of_vars trivial trivial trivial trivial fun v hv =>
      (hc.definitions e he v hv).imp (fun h => ⟨h, Nat.zero_le _⟩) fun h => h⟩

/-- What keeps the regime of owned variables keeps contexts well-formed. -/
theorem Context.WellFormed.of_keeps (hc : c.WellFormed) {s : Store}
    (h : (owned 0).Keeps c.store.arena s.arena) : { c with store := s : Context }.WellFormed := by
  refine ⟨⟨closed_owned_zero.mp h.closed, h.acyclic (owned_coherent 0) hc.arena.acyclic⟩, fun e he v hv => ?_⟩
  refine (hc.definitions e he v hv).imp (fun hname => ?_) fun h => h
  rw [h.grows.name? _ (Arena.lt_size_of_name? hname), hname]

theorem Context.WellFormed.unify (hc : c.WellFormed) {l r : Ty} (hl : c.store.arena.Owns l)
    (hr : c.store.arena.Owns r) : (c.unify l r).2.WellFormed :=
  hc.of_keeps (unify_keeps hc.holds (in_owned_zero.mpr hl) (in_owned_zero.mpr hr))

theorem Context.WellFormed.apply (hc : c.WellFormed) {function argument : Ty}
    (hf : c.store.arena.Owns function) (ha : c.store.arena.Owns argument) :
    (c.apply function argument).2.WellFormed :=
  hc.of_keeps (apply_keeps hc.holds (in_owned_zero.mpr hf) (in_owned_zero.mpr ha)).1

end WellFormedness

/-! ## Reachable contexts -/

/-- **The contexts that can be reached** from a new one: variables are handed out, symbols looked up, owned
    types unified and applied, owned definitions registered, and scopes and modules rearranged at will. -/
inductive Context.Reachable : Context → Prop where
  | new (home : String) (tracing : Bool) : Reachable (.new home tracing)
  | fresh {c : Context} : Reachable c → Reachable c.fresh.2
  | lookup {c : Context} (l : Locator) : Reachable c → Reachable (c.typeOf l).2
  | unify {c : Context} {l r : Ty} : Reachable c → c.store.arena.Owns l → c.store.arena.Owns r →
      Reachable (c.unify l r).2
  | apply {c : Context} {function argument : Ty} : Reachable c → c.store.arena.Owns function →
      c.store.arena.Owns argument → Reachable (c.apply function argument).2
  | register {c : Context} {t : Ty} {d : Definitions} : Reachable c →
      c.store.arena.OwnsDefinition t → c.definitions.define? t = some d →
      Reachable { c with definitions := d }
  | rearrange {c d : Context} : Reachable c → d.store.arena = c.store.arena →
      d.definitions = c.definitions → Reachable d

/-- In a new context no variable is bound. -/
theorem Context.binding?_new (home : String) (tracing : Bool) (id : Nat) :
    (Context.new home tracing).store.arena.binding? id = none := by
  have hstore : (Context.new home tracing).store = ({ journal := { tracing } } : Store).fresh.2.fresh.2 := rfl
  rw [hstore]
  exact ((Arena.binding?_fresh _ id).trans (Arena.binding?_fresh _ id)).trans (Arena.binding?_eq_none (Nat.zero_le id))

/-- In a new context two variables have been handed out, and none is bound. -/
theorem Context.new_wellFormed (home : String) (tracing : Bool) : (new home tracing).WellFormed := by
  have hfree := binding?_new home tracing
  refine ⟨⟨fun id t ht => ?_, Arena.acyclic_of_decreasing fun id t ht => ?_⟩, fun e he => ?_⟩
  · rw [hfree] at ht
    cases ht
  · rw [hfree] at ht
    cases ht
  · cases he

/-- **Every context that can be reached is well-formed.** -/
theorem Context.Reachable.wellFormed {c : Context} (h : c.Reachable) : c.WellFormed := by
  induction h with
  | new home tracing => exact new_wellFormed home tracing
  | fresh _ ih => exact ih.of_keeps (fresh_keeps ih.holds).1
  | @lookup c l _ ih =>
    obtain ⟨arena, hout, hgrows, hsame, -⟩ := c.typeOf_spec l
    rw [hout]
    exact ih.of_keeps (s := { c.store with arena }) (.of_same ih.holds.closed hgrows hsame)
  | unify _ hl hr ih => exact ih.unify hl hr
  | apply _ hf ha ih => exact ih.apply hf ha
  | @register c t d _ ht hd ih =>
    refine ⟨ih.arena, fun e he => ?_⟩
    have hinsert : ∀ name, d = c.definitions.insert name t → c.store.arena.OwnsDefinition e.2 := by
      rintro name rfl
      rcases List.mem_cons.mp he with rfl | he
      · exact ht
      · exact ih.definitions e (List.mem_of_mem_filter he)
    cases t with
    | record n as fs =>
      injection hd with hd
      exact hinsert n hd.symm
    | algebraic n as os =>
      injection hd with hd
      exact hinsert n hd.symm
    | _ => cases hd
  | rearrange _ harena hdefs ih =>
    refine ⟨harena ▸ ih.arena, fun e he => ?_⟩
    rw [harena]
    exact ih.definitions e (hdefs ▸ he)

/-! ## No cycles -/

/-- **Solving makes no cycle.** Unification and application end in a well-formed context, whether they succeed
    or fail; one that is given up leaves a well-formed context as well. So every context that can be reached is
    well-formed, following its bindings always ends, and exposing is the plain recursion through them, with no
    bound variable left at its end. -/
theorem solving_makes_no_cycle :
    (∀ (c : Context) (l r : Ty), c.WellFormed → c.store.arena.Owns l → c.store.arena.Owns r →
      (c.unify l r).2.WellFormed ∧ (c.apply l r).2.WellFormed) ∧
    ∀ c : Context, c.Reachable → c.WellFormed ∧
      (WellFounded fun j i => c.store.arena.Edge i j) ∧
      ∀ t, c.expose t = t.subst c.store.arena.value ∧
        ∀ v ∈ (c.expose t).vars, c.store.arena.binding? v.id = none := by
  refine ⟨fun c l r hc hl hr => ⟨hc.unify hl hr, hc.apply hl hr⟩, fun c hc => ?_⟩
  have hac := hc.wellFormed.arena.acyclic
  exact ⟨hc.wellFormed, hac.wellFounded, fun t =>
    ⟨Arena.expose_unfold hac t, fun v hv => Arena.unbound_of_mem_expose hac hv⟩⟩

/-- Two alternatives match, and what they have in common is bound. -/
theorem solving_makes_no_cycle_overloaded :
    let c := (Context.new "main" false).fresh.2.fresh.2
    let l := Ty.func (.var ⟨2, "t2"⟩) (.var ⟨3, "t3"⟩)
    let r := Ty.union [.func .integer .integer, .func .string .integer]
    (c.unify l r).2.store.arena.bindings = [(2, .union [.integer, .string]), (3, .integer)] ∧
      (c.unify l r).2.WellFormed ∧ (c.apply l r).2.WellFormed ∧
      (WellFounded fun j i => c.store.arena.Edge i j) := by
  have hreach : (Context.new "main" false).fresh.2.fresh.2.Reachable := .fresh (.fresh (.new _ _))
  have hkeeps := solving_makes_no_cycle.1 _ (.func (.var ⟨2, "t2"⟩) (.var ⟨3, "t3"⟩))
    (.union [.func .integer .integer, .func .string .integer]) hreach.wellFormed
    (by decide +kernel) (by decide +kernel)
  exact ⟨by decide +kernel, hkeeps.1, hkeeps.2, (solving_makes_no_cycle.2 _ hreach).2.1⟩

/-- **An unowned variable in a definition gets into a binding**, although the arena is well-formed and owns
    both types. -/
theorem unowned_definition_spreads :
    let c : Context := { (Context.new "main" false).fresh.2 with
      definitions := ⟨[("Box", .record "Box" [] [("v", .var ⟨99, "x"⟩)])]⟩ }
    let l := Ty.recursive "Box" []
    let r := Ty.record "Box" [] [("v", .var ⟨2, "t2"⟩)]
    c.store.arena.WellFormed ∧ c.store.arena.Owns l ∧ c.store.arena.Owns r ∧
      (c.unify l r).1 = .unified ∧ ¬(c.unify l r).2.store.arena.WellFormed := by
  have hreach : (Context.new "main" false).fresh.2.Reachable := .fresh (.new _ _)
  refine ⟨hreach.wellFormed.arena, by decide +kernel, by decide +kernel, by decide +kernel, ?_⟩
  intro h
  have howned := h.owned 2 (.var ⟨99, "x"⟩) (by decide +kernel) ⟨99, "x"⟩ (by simp)
  exact absurd howned (by decide +kernel)

end UnionTyping
