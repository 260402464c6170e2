import UnionTyping.Proofs.Orderly

/-!
# `Proofs.Conditional` — what the type of a conditional says about its branches

A conditional takes the type of its first branch if the branches unify, and the union of both types if they do
not. What was decided when the branches were typed is still so in the end, however many variables are bound
on the way (`Joined.exposed`). So the first branch is always covered, and the type says nothing that no branch
does. The second branch is covered where the branches do not unify.

Where they do, it depends on the types. First-order types are equal once they unify. But a union unifies if
one member does, and the other members of a second branch are then lost (`second_branch_lost`).
-/

namespace UnionTyping

open List TypedExpr Arena

/-! ## Covering -/

namespace Ty

theorem equivList_refl {ts : List Ty} (h : ∀ t ∈ ts, t.equiv t = true) : equivList ts ts = true := by
  induction ts with
  | nil => rfl
  | cons t ts ih =>
    obtain ⟨ht, hts⟩ := forall_mem_cons.mp h
    rw [equivList, ht, ih hts]
    rfl

theorem equivMembers_of_forall {xs ys : List Ty} (h : ∀ x ∈ xs, ∃ y ∈ ys, x.equiv y = true) :
    equivMembers xs ys = true := by
  induction xs with
  | nil => rfl
  | cons x xs ih =>
    obtain ⟨hx, hxs⟩ := forall_mem_cons.mp h
    rw [equivMembers, any_eq_true.mpr hx, ih hxs]
    rfl

/-- Every type is equivalent to itself. -/
theorem equiv_refl (t : Ty) : t.equiv t = true := by
  induction t using Ty.structural with
  | simple n => simp [equiv]
  | func a r ha hr => simp [equiv, ha, hr]
  | record n as fs has hfs =>
    have hfields : equivFields fs fs = true := by
      refine equivFields_iff.mpr ⟨rfl, equivList_refl fun t ht => ?_⟩
      obtain ⟨e, he, rfl⟩ := mem_map.mp ht
      exact hfs e he
    simp [equiv, equivList_refl has, hfields]
  | algebraic n as os has hos => simp [equiv, equivList_refl has, equivList_refl hos]
  | recursive n as has => simp [equiv, equivList_refl has]
  | union ms hms =>
    have hmembers : equivMembers ms ms = true :=
      equivMembers_of_forall fun m hm => ⟨m, hm, hms m hm⟩
    simp [equiv, hmembers]
  | var v => simp [equiv]

end Ty

namespace Context

/-- **One type covers another**: every alternative of the other is equivalent to one of its own. -/
def Covers (c : Context) (t u : Ty) : Prop :=
  ∀ x ∈ (c.expose u).alternatives, ∃ y ∈ (c.expose t).alternatives, c.store.arena.equivalent x y = true

instance (c : Context) (t u : Ty) : Decidable (c.Covers t u) :=
  inferInstanceAs (Decidable (∀ x ∈ (c.expose u).alternatives, ∃ y ∈ (c.expose t).alternatives, _ = true))

theorem covers_congr {c : Context} {t t' : Ty} (h : c.expose t = c.expose t') (u : Ty) :
    c.Covers t u ↔ c.Covers t' u := by
  unfold Covers
  rw [h]

theorem covers_of_subset {c : Context} {t u : Ty}
    (h : (c.expose u).alternatives ⊆ (c.expose t).alternatives) : c.Covers t u :=
  fun x hx => ⟨x, h hx, Ty.equiv_refl _⟩

theorem covers_of_eq {c : Context} {t u : Ty} (h : c.expose t = c.expose u) : c.Covers t u := by
  refine covers_of_subset ?_
  rw [h]
  exact List.Subset.refl _

end Context

namespace Typing

open Check

/-! ## Types that were joined -/

variable {c d : Context} {home : String}

/-- First-order types that unify are equal afterwards. -/
theorem Orderly.expose_unified (hc : Orderly c)
    (hbindings : ∀ id u, c.store.arena.binding? id = some u → u.FirstOrder) {l r : Ty}
    (hl : orderly.Out c l) (hr : orderly.Out c r) (hlplain : l.FirstOrder) (hrplain : r.FirstOrder)
    (hunified : (c.unify l r).1 = .unified) : (c.unify l r).2.expose l = (c.unify l r).2.expose r := by
  have howned : ∀ id u, c.store.arena.binding? id = some u → c.store.arena.Owns u :=
    Regime.closed_owned_zero.mp hc.owned.whole.closed
  -- unification is only known to decide equality within a fragment that the bindings do not leave
  have hready : c.store.arena.Ready c.store.arena.firstOrder := by
    refine ⟨fun v u _ hu => ?_, hc.acyclic, fun v hv => lt_size_of_name? hv⟩
    exact in_firstOrder (howned v.id u hu) (hbindings v.id u hu)
  obtain ⟨hready', hdecides⟩ : (c.unify l r).2.store.arena.Ready c.store.arena.firstOrder ∧
      Decides c.store.arena.firstOrder (fun σ => l.subst σ = r.subst σ) c.store.arena
        (decide ((c.unify l r).1 = .unified)) (c.unify l r).2.store.arena :=
    unify_decides c.store.arena.firstOrder_firstOrder (in_firstOrder (Regime.in_owned_zero.mp hl.1) hlplain)
      (in_firstOrder (Regime.in_owned_zero.mp hr.1) hrplain) hready
  exact hdecides.sound hready' (decide_eq_true hunified)

/-- The alternatives of a union of two exposed types are those of both. -/
theorem Orderly.mem_alternatives (hc : Orderly c) {t u v : Ty} (ht : t.Solid) (hu : u.Solid)
    (h : Ty.union? [c.expose t, c.expose u] = some v) (x : Ty) :
    x ∈ v.alternatives ↔ x ∈ (c.expose t).alternatives ∨ x ∈ (c.expose u).alternatives := by
  have hsolid : c.store.arena.Solid := hc.firm.solid.bindings
  have hnormal : ∀ w ∈ [c.expose t, c.expose u], w.Normal := by
    intro w hw
    rcases mem_cons.mp hw with rfl | hw
    · exact (hsolid.expose ht).2
    · rw [mem_singleton.mp hw]
      exact (hsolid.expose hu).2
  rw [Ty.alternatives_union? h hnormal]
  simp

namespace Joined

variable {e : Expr} {span : Span} {cond a b : TypedExpr} {t : Ty} {before : Context}
  (h : Joined home e c span cond a b t before) (hd : Orderly d)
  (hgrows : (before.unify a.type b.type).2.store.arena.Extends d.store.arena)
include h hd hgrows

/-- **What was decided for the branches is so in the end**: the type of the conditional is seen as that of the
    first branch, or as the union of those of both. -/
theorem exposed : ((before.unify a.type b.type).1 = .unified ∧ d.expose t = d.expose a.type) ∨
    ((before.unify a.type b.type).1 ≠ .unified ∧ Ty.union? [d.expose a.type, d.expose b.type] = some (d.expose t)) := by
  have hafter := (h.orderly.unify h.positive h.negative).1.firm.solid.bindings
  rcases h.joins with ⟨hunified, rfl⟩ | ⟨hmismatch, hunion⟩
  · exact Or.inl ⟨hunified, expose_expose hgrows hafter hd.firm.solid.bindings hd.acyclic h.positive.2⟩
  · refine Or.inr ⟨by simp [hmismatch], ?_⟩
    have hbranches : ∀ u ∈ [a.type, b.type], u.Solid :=
      List.forall_mem_cons.mpr ⟨h.positive.2, List.forall_mem_singleton.mpr h.negative.2⟩
    exact expose_union? hgrows hafter hd.firm.solid.bindings hd.acyclic hbranches hunion

/-- First-order branches that unify have the same type in the end. -/
theorem expose_eq (hbindings : ∀ id u, d.store.arena.binding? id = some u → u.FirstOrder)
    (ha : a.type.FirstOrder) (hb : b.type.FirstOrder)
    (hunified : (before.unify a.type b.type).1 = .unified) : d.expose a.type = d.expose b.type := by
  obtain ⟨hafter, hbinds⟩ := h.orderly.unify h.positive h.negative
  -- bindings are kept, so what is first-order in the end has been so before
  have hplain : ∀ id u, before.store.arena.binding? id = some u → u.FirstOrder :=
    fun id u hu => hbindings id u (hgrows.binding? (hbinds.binding? hu))
  have hequal := h.orderly.expose_unified hplain h.positive h.negative ha hb hunified
  have hlater : ∀ {u}, u.Solid → d.expose ((before.unify a.type b.type).2.expose u) = d.expose u :=
    fun hu => expose_expose hgrows hafter.firm.solid.bindings hd.firm.solid.bindings hd.acyclic hu
  rw [← hlater h.positive.2, hequal, hlater h.negative.2]

end Joined

/-! ## The conditionals of an expression -/

/-- The node is no conditional, or it came by its type as conditionals do while the expression was typed, before
    the arena was as given. -/
def Accounted (home : String) (e : Expr) (c : Context) (arena : Arena) : TypedExpr → Prop
  | .conditional s t cond a b => ∃ before, Joined home e c s cond a b t before ∧
      (before.unify a.type b.type).2.store.arena.Extends arena
  | _ => True

/-- A conditional is accounted for when it is made, and remains so. -/
theorem accounted_nodewise (e : Expr) (c : Context) : Nodewise home e c (Accounted home e c) where
  mono := by
    intro a b node hgrows hnode
    cases node with
    | conditional span t cond a b =>
      obtain ⟨before, hjoined, hbefore⟩ := hnode
      exact ⟨before, hjoined, hbefore.trans hgrows⟩
    | _ => trivial
  literal := trivial
  reference _ _ := trivial
  apply _ _ := trivial
  lambda _ _ _ := trivial
  conditional hjoined := ⟨_, hjoined, .refl _⟩
  binding _ _ _ := trivial

/-- **Typing accounts for all conditionals.** -/
theorem infer_accounted {e : Expr} {e' : TypedExpr} (hc : Orderly c) (h : infer home e c = (.ok e', d)) :
    e'.AllNodes (Accounted home e c d.store.arena) :=
  (accounted_nodewise e c).infer .whole hc h

/-! ## Conditionals and their branches -/

/-- **What the type of a conditional covers.** It covers the first branch, and it has no alternative that
    neither branch has. It covers the second branch exactly if the branches did not unify once they were
    typed, in the context that typing the expression had come to then, or the first branch covers the second
    anyway. This is always so where there are only first-order
    types: then branches that unify have the same type. -/
theorem conditional_covers_branches {e : Expr} {e' : TypedExpr} (hc : Orderly c)
    (h : infer home e c = (.ok e', d)) {span : Span} {t : Ty} {cond a b : TypedExpr}
    (hnode : .conditional span t cond a b ∈ e'.nodes) :
    d.Covers t a.type ∧
    (∀ x ∈ (d.expose t).alternatives,
      x ∈ (d.expose a.type).alternatives ∨ x ∈ (d.expose b.type).alternatives) ∧
    (∃ before, TypesBranches home e c span cond a b before ∧
      (d.Covers t b.type ↔ (before.unify a.type b.type).1 ≠ .unified ∨ d.Covers a.type b.type)) ∧
    ((∀ id u, d.store.arena.binding? id = some u → u.FirstOrder) → a.type.FirstOrder →
      b.type.FirstOrder → d.Covers t b.type) := by
  have hd := (hc.infer h).1
  obtain ⟨before, hjoined, hgrows⟩ := infer_accounted hc h _ hnode
  rcases hjoined.exposed hd hgrows with ⟨hunified, heq⟩ | ⟨hother, hunion⟩
  · -- the branches unified, so the node has the type of the first one and says nothing about the second
    have hsame := Context.covers_congr heq b.type
    refine ⟨Context.covers_of_eq heq, fun x hx => Or.inl (heq ▸ hx), ⟨before, hjoined.typed, ?_⟩,
      fun hbindings ha hb => ?_⟩
    · rw [hsame]
      exact ⟨Or.inr, fun hcovers => hcovers.resolve_left (not_not_intro hunified)⟩
    · have hbranches := hjoined.expose_eq hd hgrows hbindings ha hb hunified
      exact hsame.mpr (Context.covers_of_eq hbranches)
  · have hmem := hd.mem_alternatives hjoined.positive.2 hjoined.negative.2 hunion
    have hsecond : d.Covers t b.type := Context.covers_of_subset fun x hx => (hmem x).mpr (Or.inr hx)
    exact ⟨Context.covers_of_subset fun x hx => (hmem x).mpr (Or.inl hx), fun x hx => (hmem x).mp hx,
      ⟨before, hjoined.typed, fun _ => Or.inl hother, fun _ => hsecond⟩, fun _ _ _ => hsecond⟩

/-- The expression `x -> if x then (if x then (y -> id y) else (z -> 1)) else "a"`. -/
def nestedChoice : Expr :=
  .lambda ⟨1, 0, 61⟩ ⟨"x", ⟨1, 0, 1⟩⟩ (.conditional ⟨1, 5, 61⟩ (.name ⟨1, 8, 9⟩ ⟨none, "x"⟩)
    (.conditional ⟨1, 15, 52⟩ (.name ⟨1, 19, 20⟩ ⟨none, "x"⟩)
      (.lambda ⟨1, 26, 37⟩ ⟨"y", ⟨1, 27, 28⟩⟩
        (.apply ⟨1, 32, 36⟩ (.name ⟨1, 32, 34⟩ ⟨none, "id"⟩) (.name ⟨1, 35, 36⟩ ⟨none, "y"⟩)))
      (.lambda ⟨1, 43, 51⟩ ⟨"z", ⟨1, 44, 45⟩⟩ (.literal ⟨1, 49, 50⟩ (.integer 1))))
    (.literal ⟨1, 58, 61⟩ (.string "a")))

/-- After `id = x -> x`, the inner conditional is typed while its branches have variables in their types, which
    are bound as they unify; the outer one joins a function and a string. -/
theorem conditional_covers_branches_nested :
    let earlier := Input.program ⟨"main", [⟨⟨"id", ⟨0, 0, 2⟩⟩,
      .lambda ⟨0, 5, 11⟩ ⟨"x", ⟨0, 5, 6⟩⟩ (.name ⟨0, 10, 11⟩ ⟨none, "x"⟩), ⟨0, 0, 11⟩⟩]⟩
    let c := earlier.check (.new "main" false)
    Orderly c ∧ ∃ e' d, infer "main" nestedChoice c = (.ok e', d) ∧ ∃ span t cond a b,
      .conditional span t cond a b ∈ e'.nodes ∧ d.expose t = .func .integer .integer ∧
        d.Covers t a.type ∧ d.Covers t b.type := by
  intro earlier c
  let v (id : Nat) : Ty := .var ⟨id, "t" ++ toString id⟩
  let cond := TypedExpr.reference ⟨1, 19, 20⟩ .boolean ⟨.variable "x", .boolean⟩
  let first := TypedExpr.lambda ⟨1, 26, 37⟩ (.func (v 7) (v 7)) ⟨.variable "y", v 5⟩ (.apply ⟨1, 32, 36⟩ (v 7)
    (.reference ⟨1, 32, 34⟩ (.func (v 6) (v 6)) ⟨.declaration "main" "id", .func (v 6) (v 6)⟩)
    (.reference ⟨1, 35, 36⟩ (v 5) ⟨.variable "y", v 5⟩))
  let second := TypedExpr.lambda ⟨1, 43, 51⟩ (.func (v 8) .integer) ⟨.variable "z", v 8⟩
    (.literal ⟨1, 49, 50⟩ .integer (.integer 1))
  let node := TypedExpr.conditional ⟨1, 15, 52⟩ (.func .integer .integer) cond first second
  have hearlier : earlier.Parsed := ⟨0, "main", "id = x -> x", by decide +kernel⟩
  have hc : Orderly c := (Checked.check (.new "main" false) hearlier).orderly
  have hnode : (infer "main" nestedChoice c).1.toOption.map (fun e' => decide (node ∈ e'.nodes)) = some true := by
    decide +kernel
  have hexpose : (infer "main" nestedChoice c).2.expose (.func .integer .integer) = .func .integer .integer := by
    decide +kernel
  have hplain : ∀ id < (infer "main" nestedChoice c).2.store.arena.size,
      ∀ u ∈ (infer "main" nestedChoice c).2.store.arena.binding? id, u.FirstOrder := by decide +kernel
  cases hrun : infer "main" nestedChoice c with
  | mk r d =>
      rw [hrun] at hnode hexpose hplain
      cases r with
      | error _ => cases hnode
      | ok e' =>
          have hmem : node ∈ e'.nodes := of_decide_eq_true (Option.some.inj hnode)
          obtain ⟨hfirst, -, -, hsecond⟩ := conditional_covers_branches hc hrun hmem
          refine ⟨hc, e', d, rfl, _, _, _, _, _, hmem, hexpose, hfirst, hsecond ?_ ?_ ?_⟩
          · exact fun id u hu => hplain id (Arena.lt_size_of_binding? hu) u hu
          · decide +kernel
          · decide +kernel

/-- The expression `if True then 1 else (if True then 1 else "a")`. -/
def lossyChoice : Expr :=
  .conditional ⟨0, 0, 45⟩ (.literal ⟨0, 3, 7⟩ (.boolean true)) (.literal ⟨0, 13, 14⟩ (.integer 1))
    (.conditional ⟨0, 20, 45⟩ (.literal ⟨0, 24, 28⟩ (.boolean true)) (.literal ⟨0, 34, 35⟩ (.integer 1))
      (.literal ⟨0, 41, 44⟩ (.string "a")))

/-- **The second branch may be lost**: it is an integer or a string, which unifies with the first branch, an
    integer; and the whole is said to be an integer. -/
theorem second_branch_lost :
    parseExpr 0 "if True then 1 else (if True then 1 else \"a\")" = .ok lossyChoice ∧
    ∃ e' d, infer "main" lossyChoice (.new "main" false) = (.ok e', d) ∧ ∃ span t cond a b,
      .conditional span t cond a b ∈ e'.nodes ∧ (d.expose t).alternatives = [.integer] ∧
        (d.expose b.type).alternatives = [.integer, .string] ∧ ¬d.Covers t b.type := by
  let inner := TypedExpr.conditional ⟨0, 20, 45⟩ (.union [.integer, .string])
    (.literal ⟨0, 24, 28⟩ .boolean (.boolean true)) (.literal ⟨0, 34, 35⟩ .integer (.integer 1))
    (.literal ⟨0, 41, 44⟩ .string (.string "a"))
  let typed := TypedExpr.conditional ⟨0, 0, 45⟩ .integer (.literal ⟨0, 3, 7⟩ .boolean (.boolean true))
    (.literal ⟨0, 13, 14⟩ .integer (.integer 1)) inner
  have htyped : (infer "main" lossyChoice (.new "main" false)).1.toOption = some typed := by decide +kernel
  have hlost : ((infer "main" lossyChoice (.new "main" false)).2.expose .integer).alternatives = [.integer] ∧
      ((infer "main" lossyChoice (.new "main" false)).2.expose inner.type).alternatives = [.integer, .string] ∧
      ¬(infer "main" lossyChoice (.new "main" false)).2.Covers .integer inner.type := by decide +kernel
  refine ⟨by decide +kernel, ?_⟩
  cases hrun : infer "main" lossyChoice (.new "main" false) with
  | mk r d =>
      rw [hrun] at htyped hlost
      cases r with
      | error _ => cases htyped
      | ok e' =>
          have hmem : typed ∈ e'.nodes := by
            rw [Option.some.inj htyped]
            exact List.mem_cons_self
          exact ⟨e', d, rfl, _, _, _, _, _, hmem, hlost⟩

end Typing

end UnionTyping
