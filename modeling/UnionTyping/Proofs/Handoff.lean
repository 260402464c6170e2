import UnionTyping.Proofs.Declared

/-!
# `Proofs.Handoff` — what is handed on stays as it is

The check before a body is handed on looks at the types of its nodes, as they are then. Nodes hold more types
than these: that of the symbol a node refers to, of a parameter, of a local binding. All of them are exposed
and depend on no other variables than the check allows, since a symbol is of the type of the node that refers
to it, and the type of a parameter is seen in that of its function (`Tied`). And this is for good: whatever is
checked later binds variables of its own, and those that were handed on are not among them
(`handed_on_for_good`).
-/

namespace UnionTyping

open List

namespace TypedExpr

/-! ## The types of a tree -/

variable {t : Ty} {x : TypedDecl}

/-- The types that a node holds: its own, and that of the symbol it refers to or introduces. -/
def ownTypes : TypedExpr → List Ty
  | .literal _ t _ => [t]
  | .reference _ t r => [t, r.type]
  | .apply _ t _ _ => [t]
  | .lambda _ t p _ => [t, p.type]
  | .conditional _ t _ _ _ => [t]
  | .binding _ t x _ _ => [t, x.type]

/-- All types that a tree holds. -/
def types (e : TypedExpr) : List Ty :=
  e.nodes.flatMap ownTypes

theorem nodes_mapTypes (f : Ty → Ty) (e : TypedExpr) : (e.mapTypes f).nodes = e.nodes.map (mapTypes f) := by
  induction e with
  | literal => rfl
  | reference => rfl
  | apply s t g a ihg iha => simp [mapTypes, nodes, ihg, iha]
  | lambda s t p b ih => simp [mapTypes, nodes, ih]
  | conditional s t c a b ihc iha ihb =>
    simp [mapTypes, nodes, ihc, iha, ihb]
  | binding s t x v b ihv ihb => simp [mapTypes, nodes, ihv, ihb]

theorem ownTypes_mapTypes (f : Ty → Ty) (e : TypedExpr) : (e.mapTypes f).ownTypes = e.ownTypes.map f := by
  cases e <;> rfl

theorem types_mapTypes (f : Ty → Ty) (e : TypedExpr) : (e.mapTypes f).types = e.types.map f := by
  simp only [types, nodes_mapTypes, flatMap_map, ownTypes_mapTypes, map_flatMap]

theorem type_mapTypes (f : Ty → Ty) (e : TypedExpr) : (e.mapTypes f).type = f e.type := by
  cases e <;> rfl

theorem mem_bindingTypes {s : Span} {x : Reference} {e v b : TypedExpr} (h : .binding s t x v b ∈ e.nodes) :
    x.type ∈ e.bindingTypes :=
  mem_filterMap.mpr ⟨_, h, rfl⟩

theorem mem_types_of_mem_bindingTypes {e : TypedExpr} {u : Ty} (h : u ∈ e.bindingTypes) : u ∈ e.types := by
  obtain ⟨node, hnode, hu⟩ := mem_filterMap.mp h
  split at hu
  · cases hu
    exact mem_flatMap.mpr ⟨_, hnode, by simp [ownTypes]⟩
  · cases hu

theorem mem_ownTypes_type (e : TypedExpr) : e.type ∈ e.ownTypes := by
  cases e <;> exact mem_cons_self

/-! ## The check -/

/-- **When a body is handed on**: with all its types exposed, if every node depends on allowed variables. -/
theorem handOff_ok {a : Arena} {type : Ty} {body done : TypedExpr} (h : body.handOff a type = .ok done) :
    done = body.mapTypes a.expose ∧ ∀ node ∈ done.nodes, ∀ v ∈ a.freeVars node.type, v ∈ done.allowedVars a type := by
  unfold handOff at h
  simp only [] at h
  split at h
  · rename_i hnone
    cases h
    refine ⟨rfl, fun node hnode v hv => ?_⟩
    have hallowed := find?_eq_none.mp hnone node hnode
    simp only [any_eq_true, not_exists, not_and, Bool.not_eq_true, Bool.not_eq_false', contains_iff_mem] at hallowed
    exact hallowed v hv
  · cases h

/-- **How the other types of a node are tied to its own**: a symbol is of the type of the node that refers to
    it, and a function is of the type of its parameter as it was seen at some time. -/
def Tied (a : Arena) : TypedExpr → Prop
  | .reference _ t r => r.type = t
  | .lambda _ t p b => ∃ earlier : Arena, earlier.Extends a ∧ earlier.Solid ∧
      t = .func (earlier.expose p.type) b.type
  | _ => True

/-- **What is known of each node** while the arena grows: its types are made of owned variables, none is hollow,
    and they are tied to each other. -/
structure Kept (a : Arena) (node : TypedExpr) : Prop where
  types : ∀ t ∈ node.ownTypes, a.Owns t ∧ t.Solid
  tied : node.Tied a

end TypedExpr

namespace Typing

open TypedExpr

variable {c d : Context}

theorem out_iff : orderly.Out c t ↔ c.store.arena.Owns t ∧ t.Solid :=
  and_congr_left' Regime.in_owned_zero

/-- **Typing makes nodes whose types are kept.** -/
theorem kept_nodewise (home : String) (e : Expr) (c : Context) : Nodewise home e c Kept where
  mono := by
    rintro a b node h ⟨htypes, htied⟩
    refine ⟨fun t ht => ⟨(htypes t ht).1.mono h, (htypes t ht).2⟩, ?_⟩
    cases node with
    | lambda s t p body =>
      obtain ⟨earlier, hgrows, hsolid, ht⟩ := htied
      exact ⟨earlier, hgrows.trans h, hsolid, ht⟩
    | _ => exact htied
  literal := by
    intro a span v
    refine ⟨fun t ht => ?_, trivial⟩
    rw [mem_singleton.mp ht]
    cases v <;> exact ⟨nofun, firm_solving.simple (.new home false) _⟩
  reference := by
    intro d span l t _ ht
    refine ⟨fun u hu => ?_, rfl⟩
    simp only [ownTypes, mem_cons, not_mem_nil, or_false, or_self] at hu
    exact hu ▸ out_iff.mp ht
  apply := by
    intro d span t f a _ ht
    refine ⟨fun u hu => ?_, trivial⟩
    exact mem_singleton.mp hu ▸ out_iff.mp ht
  lambda := by
    intro d span x v body hd hv hbody
    -- the function is made of the parameter as it is seen now
    have hv' := hd.expose hv
    have hfunc : orderly.Out d (.func (d.expose v) body.type) :=
      orderly_solving.func d _ _ hv' hbody
    refine ⟨fun u hu => ?_, d.store.arena, .refl _, hd.firm.solid.bindings, rfl⟩
    simp only [ownTypes, mem_cons, not_mem_nil, or_false] at hu
    rcases hu with rfl | rfl
    · exact out_iff.mp hfunc
    · exact out_iff.mp hv
  conditional := by
    intro before span t cond a b hjoined
    refine ⟨fun u hu => ?_, trivial⟩
    exact mem_singleton.mp hu ▸ out_iff.mp hjoined.out
  binding := by
    intro d span x t value body _ ht hbody
    refine ⟨fun u hu => ?_, trivial⟩
    simp only [ownTypes, mem_cons, not_mem_nil, or_false] at hu
    rcases hu with rfl | rfl
    · exact out_iff.mp hbody
    · exact out_iff.mp ht

section Kept

variable (hd : Orderly d)
include hd

theorem freeVars_expose (ht : t.Solid) : d.store.arena.freeVars (d.expose t) = d.store.arena.freeVars t :=
  congrArg (fun u : Ty => u.vars.eraseDups) (hd.expose_expose ht)

/-- **A node's own type has the variables of all its types**, except where a name is bound. -/
theorem Kept.freeVars_subset {node : TypedExpr} (h : Kept d.store.arena node) {u : Ty} (hu : u ∈ node.ownTypes) :
    (∃ span t x value body, node = .binding span t x value body ∧ u = x.type) ∨
      d.store.arena.freeVars u ⊆ d.store.arena.freeVars node.type := by
  cases node with
  | literal span t v => exact Or.inr (mem_singleton.mp hu ▸ List.Subset.refl _)
  | reference span t r =>
    have hr : r.type = t := h.tied
    simp only [ownTypes, hr, mem_cons, not_mem_nil, or_false, or_self] at hu
    exact Or.inr (hu ▸ List.Subset.refl _)
  | apply span t f a => exact Or.inr (mem_singleton.mp hu ▸ List.Subset.refl _)
  | lambda span t p body =>
    simp only [ownTypes, mem_cons, not_mem_nil, or_false] at hu
    rcases hu with rfl | rfl
    · exact Or.inr (List.Subset.refl _)
    · -- the parameter is seen in the function as it was seen then, and as it is seen now
      obtain ⟨earlier, hgrows, hsolid, rfl⟩ := h.tied
      have hp := (h.types p.type (by simp [ownTypes])).2
      have hfunc : d.store.arena.expose (.func (earlier.expose p.type) body.type) =
          .func (d.store.arena.expose p.type) (d.store.arena.expose body.type) := by
        rw [← Arena.expose_expose hgrows hsolid hd.firm.solid.bindings hd.acyclic hp]
        simp [Arena.expose_unfold hd.acyclic, Ty.subst]
      refine Or.inr fun v hv => ?_
      change v ∈ d.store.arena.freeVars (.func (earlier.expose p.type) body.type)
      rw [Arena.freeVars, mem_eraseDups] at hv ⊢
      rw [hfunc]
      exact mem_append_left _ hv
  | conditional span t cond a b => exact Or.inr (mem_singleton.mp hu ▸ List.Subset.refl _)
  | binding span t x value body =>
    simp only [ownTypes, mem_cons, not_mem_nil, or_false] at hu
    rcases hu with rfl | rfl
    · exact Or.inr (List.Subset.refl _)
    · exact Or.inl ⟨span, t, x, value, body, rfl, rfl⟩

/-- **What the check says of the nodes holds of all types of a body.** -/
theorem handOff_types {body done : TypedExpr} {type : Ty} (hbody : body.AllNodes (Kept d.store.arena))
    (h : body.handOff d.store.arena type = .ok done) (ht : t ∈ done.types) :
    d.store.arena.Owns t ∧ d.expose t = t ∧ ∀ v ∈ d.store.arena.freeVars t,
      v ∈ d.store.arena.freeVars type ∨ ∃ u ∈ done.bindingTypes, v ∈ d.store.arena.freeVars u := by
  obtain ⟨rfl, hallowed⟩ := handOff_ok h
  rw [types_mapTypes] at ht
  obtain ⟨u, hu, rfl⟩ := mem_map.mp ht
  obtain ⟨node, hnode, hu⟩ := mem_flatMap.mp hu
  have hkept := hbody node hnode
  -- the node is checked as it is in the body that is handed on, exposed
  have hmapped : node.mapTypes d.store.arena.expose ∈ (body.mapTypes d.store.arena.expose).nodes := by
    rw [nodes_mapTypes]
    exact mem_map_of_mem hnode
  obtain ⟨howned, hsolid⟩ := hkept.types u hu
  refine ⟨(out_iff.mp (hd.expose (out_iff.mpr ⟨howned, hsolid⟩))).1, hd.expose_expose hsolid, fun v hv => ?_⟩
  rcases Kept.freeVars_subset hd hkept hu with ⟨span, t, x, value, body', rfl, rfl⟩ | hsubset
  · exact Or.inr ⟨_, mem_bindingTypes hmapped, hv⟩
  · have hnodeSolid := (hkept.types _ node.mem_ownTypes_type).2
    have hv : v ∈ d.store.arena.freeVars (node.mapTypes d.store.arena.expose).type := by
      rw [type_mapTypes]
      rw [show d.store.arena.expose u = d.expose u from rfl, freeVars_expose hd hsolid] at hv
      rw [show d.store.arena.expose node.type = d.expose node.type from rfl, freeVars_expose hd hnodeSolid]
      exact hsubset hv
    rcases mem_append.mp (hallowed _ hmapped v hv) with hv | hv
    · exact Or.inl hv
    · exact Or.inr (mem_flatMap.mp hv)

end Kept

/-! ## Declarations -/

/-- **What a declaration is handed on with**: every type in it is made of owned variables and is as it is seen,
    and a variable on which a type of its body depends is free in the declaration's type or in that of a local
    binding. -/
structure HandedOn (c : Context) (x : TypedDecl) : Prop where
  owned : ∀ t ∈ x.type :: x.body.types, c.store.arena.Owns t
  exposed : ∀ t ∈ x.type :: x.body.types, c.expose t = t
  determined : ∀ t ∈ x.body.types, ∀ v ∈ c.store.arena.freeVars t,
    v ∈ c.store.arena.freeVars x.type ∨ ∃ u ∈ x.body.bindingTypes, v ∈ c.store.arena.freeVars u

/-- A body is handed on with the type of its declaration. -/
theorem handedOn_of_handOff (hd : Orderly d) {body : TypedExpr} (ht : orderly.Out d t)
    (htype : x.type = d.expose t) (hbody : body.AllNodes (Kept d.store.arena))
    (h : body.handOff d.store.arena x.type = .ok x.body) : HandedOn d x := by
  refine ⟨forall_mem_cons.mpr ⟨?_, fun u hu => ?_⟩, forall_mem_cons.mpr ⟨?_, fun u hu => ?_⟩, fun u hu => ?_⟩
  · rw [htype]
    exact (out_iff.mp (hd.expose ht)).1
  · exact (handOff_types hd hbody h hu).1
  · rw [htype]
    exact hd.expose_expose ht.2
  · exact (handOff_types hd hbody h hu).2.1
  · exact (handOff_types hd hbody h hu).2.2

/-- **What is handed on stays as it is** while others bind variables of their own. -/
theorem HandedOn.later (h : HandedOn c x) (hc : Settled c)
    (hadvances : c.store.arena.Advances c.store.arena.size d.store.arena) : HandedOn d x := by
  -- the variables in the types were handed out before, and so are bound as they were
  have hexpose : ∀ t ∈ x.type :: x.body.types, d.expose t = c.expose t :=
    fun t ht => hc.expose_eq hadvances (h.owned t ht)
  have hfree : ∀ t ∈ x.type :: x.body.types, d.store.arena.freeVars t = c.store.arena.freeVars t :=
    fun t ht => congrArg (fun u : Ty => u.vars.eraseDups) (hexpose t ht)
  refine ⟨fun t ht => (h.owned t ht).mono hadvances.grows,
    fun t ht => (hexpose t ht).trans (h.exposed t ht), fun t ht v hv => ?_⟩
  rw [hfree t (mem_cons_of_mem _ ht)] at hv
  rw [hfree x.type mem_cons_self]
  rcases h.determined t ht v hv with hv | ⟨u, hu, hv⟩
  · exact Or.inl hv
  · refine Or.inr ⟨u, hu, ?_⟩
    rw [hfree u (mem_cons_of_mem _ (mem_types_of_mem_bindingTypes hu))]
    exact hv

/-- **The declarations of a group that succeeds are handed on.** -/
theorem checkGroup_handedOn {home : String} {decls : List Decl} {done : List TypedDecl} (hc : Calm c)
    (h : checkGroup home decls c = (.ok done, d)) : ∀ x ∈ done, HandedOn d x := by
  intro x hx
  have hd := hc.checkGroup home decls
  rw [h] at hd
  obtain ⟨entries, -, hestablishes⟩ := checkGroup_ok hc h
  obtain ⟨t, -, ht, htype⟩ := hestablishes.types x hx
  obtain ⟨_, -, -, body, _, htyped, hbody⟩ := hestablishes.bodies x hx
  exact handedOn_of_handOff hd.orderly ht htype (htyped.nodes (kept_nodewise home _)) hbody

/-- **So are those of groups in a row**, and later groups leave earlier ones as they are. -/
theorem checkGroups_handedOn {home : String} {decls : List Decl} {groups : List (List Nat)}
    {typed : List (Nat × TypedDecl)} (hc : Calm c) (h : checkGroups home decls groups c = (.ok typed, d)) :
    ∀ x ∈ typed, HandedOn d x.2 := by
  induction groups generalizing c typed with
  | nil =>
    cases h
    simp
  | cons group rest ih =>
    obtain ⟨done, between, more, hdone, hmore, rfl⟩ := checkGroups_cons_ok.mp h
    have hbetween := hc.checkGroup home (groupDecls decls group)
    rw [hdone] at hbetween
    intro x hx
    rcases mem_append.mp hx with hx | hx
    · have hfirst := checkGroup_handedOn hc hdone x.2 (of_mem_zip hx).2
      exact hfirst.later hbetween.settled (checkGroups_isolates hbetween hmore).2.advances
    · exact ih hbetween hmore x hx

/-- **So is an expression on its own.** -/
theorem checkExpr_handedOn {e : Expr} (hc : Calm c) (h : checkExpr e c = (.ok x, d)) : HandedOn d x := by
  obtain ⟨body, after, done, hbody, hhand, rfl, rfl⟩ := checkExpr_ok h
  obtain ⟨hafter, -, hout⟩ := hc.orderly.infer hbody
  have hnodes := (kept_nodewise c.home _ _).infer .whole hc.orderly hbody
  have hx : HandedOn after ⟨.declaration c.home latest, after.expose body.type, done, e.span⟩ :=
    handedOn_of_handOff hafter hout rfl hnodes hhand
  -- declaring it changes the scope alone
  exact ⟨hx.owned, hx.exposed, hx.determined⟩

/-! ## Inputs and what comes after them -/

/-- The declarations that come of checking an input. -/
def Input.declares : Input → Context → List TypedDecl
  | .program p, c =>
      match (checkProgram p c).1 with
      | .ok result => result.decls
      | .error _ => []
  | .expression e, c =>
      match (checkExpr e c).1 with
      | .ok x => [x]
      | .error _ => []

theorem Input.declares_handedOn (input : Input) (hc : Calm c) : ∀ x ∈ input.declares c, HandedOn (input.check c) x := by
  intro x hx
  cases input with
  | program p =>
    cases hrun : checkProgram p c with
    | mk r after =>
      simp only [declares, check, hrun] at hx ⊢
      cases r with
      | error _ => cases hx
      | ok result =>
        obtain ⟨typed, htyped, rfl⟩ := checkProgram_ok hrun
        obtain ⟨i, -, hlookup⟩ := mem_filterMap.mp hx
        exact checkGroups_handedOn (hc.load (.program p)) htyped (i, x) (mem_of_lookup hlookup)
  | expression e =>
    cases hrun : checkExpr e c with
    | mk r after =>
      simp only [declares, check, hrun] at hx ⊢
      cases r with
      | error _ => cases hx
      | ok x' =>
        rw [mem_singleton.mp hx]
        exact checkExpr_handedOn hc hrun

/-- **What is handed on is handed on for good.** Let an input be checked in a context that a session reaches.
    In each declaration that comes of it, all types are as they are seen, and the variables that they depend on
    are free in the declaration's type or in that of a local binding; and so it is after any tasks that follow,
    successful or not. -/
theorem handed_on_for_good {c : Context} (hc : Reached c) (input : Input) (later : List Task) :
    ∀ x ∈ input.declares c, HandedOn (later.foldl (fun d task => task.run d) (input.check c)) x := by
  intro x hx
  have hcheck : Calm (input.check c) := hc.calm.check input
  have hx := input.declares_handedOn hc.calm x hx
  generalize input.check c = d at hcheck hx
  -- one task after the other; each begins in a calm context
  induction later generalizing d with
  | nil => exact hx
  | cons task rest ih =>
      exact ih _ (task.run_calm hcheck) (hx.later hcheck.settled (task.run_advances hcheck.settled))

/-- After `id = x -> x`, the module with `f = y -> let g = z -> id z in g y` is checked, and `f 1` after it. The
    tree of `f` holds variables that are free in the type of `g` only, and is still what was handed on. -/
theorem handed_on_for_good_polymorphic :
    let earlier := Task.check (.program ⟨"main", [⟨⟨"id", ⟨0, 0, 2⟩⟩,
      .lambda ⟨0, 5, 11⟩ ⟨"x", ⟨0, 5, 6⟩⟩ (.name ⟨0, 10, 11⟩ ⟨none, "x"⟩), ⟨0, 0, 11⟩⟩]⟩)
    let input := Input.program ⟨"main", [⟨⟨"f", ⟨1, 0, 1⟩⟩,
      .lambda ⟨1, 4, 33⟩ ⟨"y", ⟨1, 4, 5⟩⟩ (.binding ⟨1, 9, 33⟩ ⟨"g", ⟨1, 13, 14⟩⟩
        (.lambda ⟨1, 17, 26⟩ ⟨"z", ⟨1, 17, 18⟩⟩
          (.apply ⟨1, 22, 26⟩ (.name ⟨1, 22, 24⟩ ⟨none, "id"⟩) (.name ⟨1, 25, 26⟩ ⟨none, "z"⟩)))
        (.apply ⟨1, 30, 33⟩ (.name ⟨1, 30, 31⟩ ⟨none, "g"⟩) (.name ⟨1, 32, 33⟩ ⟨none, "y"⟩))), ⟨1, 0, 33⟩⟩]⟩
    let later := Task.check (.expression
      (.apply ⟨2, 0, 3⟩ (.name ⟨2, 0, 1⟩ ⟨none, "f"⟩) (.literal ⟨2, 2, 3⟩ (.integer 1))))
    let c := earlier.run (.new "main" false)
    let d := later.run (input.check c)
    (input.declares c).length = 1 ∧ (input.check c).store.arena.bindings.length < d.store.arena.bindings.length ∧
      (∀ x ∈ input.declares c, ∃ t ∈ x.body.types, ∃ v ∈ d.store.arena.freeVars t,
        v ∉ d.store.arena.freeVars x.type) ∧
      ∀ x ∈ input.declares c, HandedOn d x := by
  intro earlier input later c d
  have hearlier : earlier.Parsed := ⟨0, "main", "id = x -> x", by decide +kernel⟩
  have hc : Reached c := .run (.new "main" false) hearlier
  exact ⟨by decide +kernel, by decide +kernel, by decide +kernel, handed_on_for_good hc input [later]⟩

end Typing
end UnionTyping
