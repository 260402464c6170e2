import UnionTyping.Proofs.Outcome
import UnionTyping.Proofs.Solidity

/-!
# `Proofs.Orderly` — typing in good order, node by node

A context is *orderly* if all variables are owned, nothing is hollow and no binding leads back to its variable.
Contexts that come from checking are (`Checked.orderly`), and typing keeps them so, step by step: each step has
a lemma that says what is known of the context and of the types at hand once it has succeeded.

What typing makes of an expression is a tree. The parts that it comes to on the way, and the context it has then,
are said apart from the tree (`Visits`), so that a node can be traced to its place in the run. A property of the
nodes holds everywhere in the tree if each form of expression gives it to the node that is made, and if it is not
lost while the arena grows (`Nodewise.infer`).
-/

namespace UnionTyping

open List TypedExpr

/-! ## Two disciplines -/

namespace Discipline

variable {σ ι : Type}

/-- Two disciplines at once. -/
def and (D D' : Discipline σ ι) : Discipline σ ι where
  Inv s := D.Inv s ∧ D'.Inv s
  Step s t := D.Step s t ∧ D'.Step s t
  Out s x := D.Out s x ∧ D'.Out s x
  refl s := ⟨D.refl s, D'.refl s⟩
  trans h h' := ⟨D.trans h.1 h'.1, D'.trans h.2 h'.2⟩
  mono h hx := ⟨D.mono h.1 hx.1, D'.mono h.2 hx.2⟩

end Discipline

namespace Check

variable {ι α : Type}

/-- A computation that obeys each of two disciplines obeys both at once. -/
theorem Obeys.and {D D' : Discipline Context ι} {given : List ι} {parts : α → List ι} {m : Check α}
    (h : m.Obeys D given parts) (h' : m.Obeys D' given parts) :
    m.Obeys (D.and D') given parts := by
  intro c hc hgiven
  obtain ⟨hinv, hstep, hout⟩ := h c hc.1 fun x hx => (hgiven x hx).1
  obtain ⟨hinv', hstep', hout'⟩ := h' c hc.2 fun x hx => (hgiven x hx).2
  exact ⟨⟨hinv, hinv'⟩, ⟨hstep, hstep'⟩, fun a ha x hx => ⟨hout a ha x hx, hout' a ha x hx⟩⟩

theorem Solving.and {D D' : Discipline Context Ty} (h : Solving D) (h' : Solving D') : Solving (D.and D') where
  simple c n := ⟨h.simple c n, h'.simple c n⟩
  func c a r ha hr := ⟨h.func c a r ha.1 hr.1, h'.func c a r ha.2 hr.2⟩
  union? c ts t hts ht :=
    ⟨h.union? c ts t (fun u hu => (hts u hu).1) ht, h'.union? c ts t (fun u hu => (hts u hu).2) ht⟩
  expose c t hc ht := ⟨h.expose c t hc.1 ht.1, h'.expose c t hc.2 ht.2⟩
  note c level message hlevel hc := by
    obtain ⟨hinv, hstep⟩ := h.note c level message hlevel hc.1
    obtain ⟨hinv', hstep'⟩ := h'.note c level message hlevel hc.2
    exact ⟨⟨hinv, hinv'⟩, hstep, hstep'⟩
  lookup c l hc := by
    obtain ⟨hinv, hstep, hout⟩ := h.lookup c l hc.1
    obtain ⟨hinv', hstep', hout'⟩ := h'.lookup c l hc.2
    exact ⟨⟨hinv, hinv'⟩, ⟨hstep, hstep'⟩, fun t ht => ⟨hout t ht, hout' t ht⟩⟩
  unify c l r hc hl hr := by
    obtain ⟨hinv, hstep⟩ := h.unify c l r hc.1 hl.1 hr.1
    obtain ⟨hinv', hstep'⟩ := h'.unify c l r hc.2 hl.2 hr.2
    exact ⟨⟨hinv, hinv'⟩, hstep, hstep'⟩
  apply c f a hc hf ha := by
    obtain ⟨hinv, hstep, hout⟩ := h.apply c f a hc.1 hf.1 ha.1
    obtain ⟨hinv', hstep', hout'⟩ := h'.apply c f a hc.2 hf.2 ha.2
    exact ⟨⟨hinv, hinv'⟩, ⟨hstep, hstep'⟩, fun t ht => ⟨hout t ht, hout' t ht⟩⟩

end Check

namespace Typing

open Check

/-! ## Orderly contexts -/

/-- Typing restores scopes, and gives solid types made of owned variables. -/
def sound : Discipline Context Ty :=
  (owning 0).and firm

theorem sound_solving : Solving sound :=
  (owning_solving 0).and firm_solving

/-- **The state while something is typed**: all variables are owned, nothing is hollow, and no binding leads
    back to its variable. -/
structure Orderly (c : Context) : Prop where
  owned : Scoped 0 c
  firm : Firm c
  acyclic : c.store.arena.Acyclic

/-- Typing in good order. -/
def orderly : Discipline Context Ty :=
  { sound with Inv := Orderly }

variable {α : Type} {given : List Ty} {c d : Context} {home : String}

/-- What is said of a type that was found stays true while the arena grows. -/
theorem out_mono (h : c.store.arena.Extends d.store.arena) {t : Ty} (ht : orderly.Out c t) : orderly.Out d t :=
  ⟨ht.1.mono ((Regime.owned 0).grow h), ht.2⟩

/-- An orderly context is one that both disciplines may start from. -/
theorem Orderly.inv (hc : Orderly c) : sound.Inv c :=
  ⟨hc.owned, hc.firm⟩

/-- A step of the two disciplines closes no cycle, so it leads from order to order. -/
theorem Orderly.after (hc : Orderly c) (hd : sound.Inv d) (hstep : sound.Step c d) : Orderly d :=
  ⟨hd.1, hd.2, hstep.1.2.acyclic hc.acyclic⟩

/-- A computation that owns its variables and makes nothing hollow keeps the order. -/
theorem orderly_obeys {parts : α → List Ty} {m : Check α} (hown : m.Obeys (owning 0) given parts)
    (hfirm : m.Obeys firm given parts) :
    m.Obeys orderly given parts := by
  intro c hc hgiven
  obtain ⟨hinv, hstep, hout⟩ := hown.and hfirm c hc.inv hgiven
  exact ⟨hc.after hinv hstep, hstep, hout⟩

/-- **The operations of the solver keep the order**, and what they give is in order. -/
theorem orderly_solving : Solving orderly where
  simple := sound_solving.simple
  func := sound_solving.func
  union? := sound_solving.union?
  expose c t hc := sound_solving.expose c t hc.inv
  note c level message hlevel hc := by
    obtain ⟨hinv, hstep⟩ := sound_solving.note c level message hlevel hc.inv
    exact ⟨hc.after hinv hstep, hstep⟩
  lookup c l hc := by
    obtain ⟨hinv, hstep, hout⟩ := sound_solving.lookup c l hc.inv
    exact ⟨hc.after hinv hstep, hstep, hout⟩
  unify c l r hc hl hr := by
    obtain ⟨hinv, hstep⟩ := sound_solving.unify c l r hc.inv hl hr
    exact ⟨hc.after hinv hstep, hstep⟩
  apply c f a hc hf ha := by
    obtain ⟨hinv, hstep, hout⟩ := sound_solving.apply c f a hc.inv hf ha
    exact ⟨hc.after hinv hstep, hstep, hout⟩

/-- What becomes of an orderly context when something is typed. -/
theorem Orderly.typed (hc : Orderly c) {m : Check TypedExpr} (hm : ∀ D, Disciplined D → m.Obeys D given typeOnly)
    (hgiven : ∀ t ∈ given, orderly.Out c t) {e : TypedExpr} (h : m c = (.ok e, d)) :
    Orderly d ∧ c.store.arena.Extends d.store.arena ∧ orderly.Out d e.type := by
  obtain ⟨hinv, hstep, hout⟩ := orderly_obeys (hm _ (owning_disciplined 0)) (hm _ firm_disciplined) c hc hgiven
  rw [h] at hinv hstep hout
  exact ⟨hinv, hstep.1.2.grows, hout e rfl _ mem_cons_self⟩

theorem Orderly.infer (hc : Orderly c) {e : Expr} {e' : TypedExpr} (h : infer home e c = (.ok e', d)) :
    Orderly d ∧ c.store.arena.Extends d.store.arena ∧ orderly.Out d e'.type :=
  hc.typed (fun _ hD => hD.infer_obeys home e) (by simp) h

theorem Orderly.reference (hc : Orderly c) {span : Span} {l : Locator} {e' : TypedExpr}
    (h : reference span l c = (.ok e', d)) :
    Orderly d ∧ c.store.arena.Extends d.store.arena ∧ orderly.Out d e'.type :=
  hc.typed (fun _ hD => hD.reference_obeys span l) (by simp) h

theorem Orderly.applied (hc : Orderly c) {span : Span} {f a e' : TypedExpr} (hf : orderly.Out c f.type)
    (ha : orderly.Out c a.type) (h : applied span f a c = (.ok e', d)) :
    Orderly d ∧ c.store.arena.Extends d.store.arena ∧ orderly.Out d e'.type :=
  hc.typed (fun _ hD => hD.applied_obeys span f a) (by simp [hf, ha]) h

/-! ## Steps -/

theorem Orderly.expose (hc : Orderly c) {t : Ty} (ht : orderly.Out c t) : orderly.Out c (c.expose t) :=
  orderly_solving.expose c t hc ht

/-- What is seen stays as it is seen. -/
theorem Orderly.expose_expose (hc : Orderly c) {t : Ty} (ht : t.Solid) : c.expose (c.expose t) = c.expose t := by
  have hsolid := hc.firm.solid.bindings
  exact Arena.expose_expose (.refl _) hsolid hsolid hc.acyclic ht

theorem Orderly.unify (hc : Orderly c) {l r : Ty} (hl : orderly.Out c l) (hr : orderly.Out c r) :
    Orderly (c.unify l r).2 ∧ c.store.arena.Extends (c.unify l r).2.store.arena := by
  obtain ⟨hafter, hstep⟩ := orderly_solving.unify c l r hc hl hr
  exact ⟨hafter, hstep.1.2.grows⟩

theorem Orderly.expect (hc : Orderly c) {expected found : Ty} (hexpected : orderly.Out c expected)
    (hfound : orderly.Out c found) (h : c.expect expected found = (.ok (), d)) :
    Orderly d ∧ c.store.arena.Extends d.store.arena := by
  have hunify := hc.unify hexpected hfound
  rw [← Context.expect_state, h] at hunify
  exact hunify

theorem Orderly.note (hc : Orderly c) {level : LogLevel} (message : Unit → String) (hlevel : level ≠ .warn) :
    Orderly (c.note level message) :=
  (orderly_solving.note c level message hlevel hc).1

/-- A parameter's variable is owned as soon as its scope is opened. -/
theorem Orderly.openParameter (hc : Orderly c) (x : Ident) :
    Orderly (openParameter x c).2 ∧ orderly.Out (openParameter x c).2 (openParameter x c).1 := by
  obtain ⟨hscoped, hown, hadvances⟩ := hc.owned.openParameter x
  obtain ⟨hfirm, hsolid⟩ := firm_houses.openParameter hc.firm x
  exact ⟨⟨hscoped, hfirm, hadvances.acyclic hc.acyclic⟩, hown, hsolid⟩

theorem Orderly.openValue (hc : Orderly c) (x : Ident) :
    Orderly (openValue x c) ∧ orderly.Out (openValue x c) (Typing.openParameter x c).1 := by
  obtain ⟨hopen, hvar⟩ := hc.openParameter x
  exact ⟨hopen.note _ (by decide), hvar⟩

/-- Typing the value of a local binding and giving it to the name keeps the order. -/
theorem Orderly.bound (hc : Orderly c) {x : Ident} {value : Expr} {t : Ty} {value' : TypedExpr}
    (h : boundValue x (Typing.infer home value) c.enter = (.ok (t, value'), d)) : Orderly d := by
  obtain ⟨hscoped, -, hadvances⟩ := hc.owned.boundValue x ((owning_disciplined 0).infer_obeys home value)
  have hfirm := (firm_houses.boundValue hc.firm x (firm_disciplined.infer_obeys home value)).1
  rw [h] at hscoped hadvances hfirm
  exact ⟨hscoped, hfirm, hadvances.acyclic hc.acyclic⟩

/-- A settled context is orderly if nothing in it is hollow. -/
theorem Settled.orderly (hc : Settled c) (hfirm : Firm c) : Orderly c := by
  have hscoped := hc.scoped
  exact ⟨⟨hscoped.whole, hscoped.whole, hscoped.symbols,
    fun s hs t ht => owns_of_own (hscoped.pinned s hs t ht)⟩, hfirm, hc.arena.acyclic⟩

/-- **Contexts that come from checking are orderly.** -/
theorem Checked.orderly (h : Checked c) : Orderly c :=
  h.settled.1.orderly h.resting.toFirm

/-! ## Where typing goes -/

/-- **The parts that typing comes to**, each in the context in which it is typed, when an expression is typed in
    a context. A part is reached once the parts before it have been typed. -/
inductive Visits (home : String) (e : Expr) (c : Context) : Expr → Context → Prop where
  | whole : Visits home e c e c
  | function {span f a start} : Visits home e c (.apply span f a) start → Visits home e c f start
  | argument {span f a start f' d} : Visits home e c (.apply span f a) start →
      infer home f start = (.ok f', d) → Visits home e c a d
  | left {span op l r start f d} : Visits home e c (.binary span op l r) start →
      reference span (Builtin.locator op.symbol) start = (.ok f, d) → Visits home e c l d
  | right {span op l r start f middle l' d} : Visits home e c (.binary span op l r) start →
      reference span (Builtin.locator op.symbol) start = (.ok f, middle) →
      infer home l middle = (.ok l', d) → Visits home e c r d
  | operand {span op x start f d} : Visits home e c (.unary span op x) start →
      reference span (Builtin.locator op.declaredName) start = (.ok f, d) → Visits home e c x d
  | body {span x body start} : Visits home e c (.lambda span x body) start →
      Visits home e c body (openParameter x start).2
  | condition {span cond a b start} : Visits home e c (.conditional span cond a b) start →
      Visits home e c cond start
  | positive {span cond a b start cond' middle d} : Visits home e c (.conditional span cond a b) start →
      infer home cond start = (.ok cond', middle) →
      middle.expect .boolean cond'.type = (.ok (), d) → Visits home e c a d
  | negative {span cond a b start cond' checked middle a' d} :
      Visits home e c (.conditional span cond a b) start →
      infer home cond start = (.ok cond', checked) →
      checked.expect .boolean cond'.type = (.ok (), middle) →
      infer home a middle = (.ok a', d) → Visits home e c b d
  | value {span x value body start} : Visits home e c (.binding span x value body) start →
      Visits home e c value (openValue x start)
  | behind {span x value body start t value' d} : Visits home e c (.binding span x value body) start →
      boundValue x (infer home value) start.enter = (.ok (t, value'), d) → Visits home e c body d

/-! ## Branches -/

/-- **Typing the expression came to a conditional** at the given range, and typed its condition and then one
    branch after the other, which left the context that is given. -/
def TypesBranches (home : String) (e : Expr) (c : Context) (span : Span) (cond a b : TypedExpr)
    (before : Context) : Prop :=
  ∃ condition first second start checked ready middle,
    Visits home e c (.conditional span condition first second) start ∧
    infer home condition start = (.ok cond, checked) ∧ checked.expect .boolean cond.type = (.ok (), ready) ∧
    infer home first ready = (.ok a, middle) ∧ infer home second middle = (.ok b, before)

/-- **How a conditional came by its type**: its branches were typed, in an orderly way, and joined. -/
structure Joined (home : String) (e : Expr) (c : Context) (span : Span) (cond a b : TypedExpr) (t : Ty)
    (before : Context) : Prop where
  typed : TypesBranches home e c span cond a b before
  orderly : Orderly before
  positive : Typing.orderly.Out before a.type
  negative : Typing.orderly.Out before b.type
  joins : Joins before a.type b.type t

/-- The type of a conditional is made of owned variables and not hollow, once its branches are joined. -/
theorem Joined.out {e : Expr} {span : Span} {cond a b : TypedExpr} {t : Ty} {before : Context}
    (h : Joined home e c span cond a b t before) : Typing.orderly.Out (before.unify a.type b.type).2 t := by
  obtain ⟨hafter, hgrows⟩ := h.orderly.unify h.positive h.negative
  have hpositive := hafter.expose (out_mono hgrows h.positive)
  have hnegative := hafter.expose (out_mono hgrows h.negative)
  rcases h.joins with ⟨-, rfl⟩ | ⟨-, hunion⟩
  · exact hpositive
  · exact orderly_solving.union? _ _ _ (by simp [hpositive, hnegative]) hunion

/-! ## Nodes -/

end Typing

namespace TypedExpr

/-- All nodes have the property. -/
def AllNodes (P : TypedExpr → Prop) (e : TypedExpr) : Prop :=
  ∀ node ∈ e.nodes, P node

/-- All nodes are the root and the nodes of its parts. -/
theorem allNodes_iff {P : TypedExpr → Prop} {e : TypedExpr} :
    e.AllNodes P ↔ P e ∧ ∀ part ∈ e.children, part.AllNodes P := by
  cases e with
  | conditional span t cond a b =>
    simp only [AllNodes, nodes, children, forall_mem_cons, forall_mem_append, not_mem_nil,
      false_implies, implies_true, and_true, and_assoc]
  | _ => simp [AllNodes, nodes, children, or_imp, forall_and]

theorem AllNodes.imp {P Q : TypedExpr → Prop} {e : TypedExpr} (he : e.AllNodes P) (h : ∀ node, P node → Q node) :
    e.AllNodes Q :=
  fun node hnode => h node (he node hnode)

end TypedExpr

namespace Typing

open Check

/-- **A property for every node** of an expression that is typed, as the arena is once the node is made: each
    form of expression gives it to its node, and it is not lost while the arena grows. -/
structure Nodewise (home : String) (e : Expr) (c : Context) (P : Arena → TypedExpr → Prop) : Prop where
  mono : ∀ {a b : Arena} {node}, a.Extends b → P a node → P b node
  literal : ∀ {a span v}, P a (.literal span (literalType v) v)
  reference : ∀ {d : Context} {span l t}, Orderly d → orderly.Out d t →
    P d.store.arena (.reference span t ⟨l, t⟩)
  apply : ∀ {d : Context} {span t f a}, Orderly d → orderly.Out d t → P d.store.arena (.apply span t f a)
  lambda : ∀ {d : Context} {span x v body}, Orderly d → orderly.Out d v → orderly.Out d body.type →
    P d.store.arena (.lambda span (.func (d.expose v) body.type) ⟨x, v⟩ body)
  conditional : ∀ {before : Context} {span t cond a b}, Joined home e c span cond a b t before →
    P (before.unify a.type b.type).2.store.arena (.conditional span t cond a b)
  binding : ∀ {d : Context} {span x t value body}, Orderly d → orderly.Out d t → orderly.Out d body.type →
    P d.store.arena (.binding span body.type ⟨x, t⟩ value body)

namespace Nodewise

variable {home : String} {root : Expr} {start c d : Context} {P : Arena → TypedExpr → Prop}
  (hP : Nodewise home root start P)
include hP

theorem later {a b : Arena} {e : TypedExpr} (h : a.Extends b) (he : e.AllNodes (P a)) : e.AllNodes (P b) :=
  he.imp fun _ hnode => hP.mono h hnode

theorem of_reference (hc : Orderly c) {span : Span} {l : Locator} {e : TypedExpr}
    (h : Typing.reference span l c = (.ok e, d)) : e.AllNodes (P d.store.arena) := by
  obtain ⟨hd, -, hout⟩ := hc.reference h
  obtain ⟨t, -, rfl⟩ := reference_ok.mp h
  exact allNodes_iff.mpr ⟨hP.reference hd hout, fun part hpart => absurd hpart not_mem_nil⟩

/-- The nodes of an application are those of its two parts, in the arena that applying them leaves, and itself. -/
theorem of_applied (hc : Orderly c) {span : Span} {f a e : TypedExpr} (hfout : orderly.Out c f.type)
    (haout : orderly.Out c a.type) (hf : f.AllNodes (P c.store.arena)) (ha : a.AllNodes (P c.store.arena))
    (h : applied span f a c = (.ok e, d)) : e.AllNodes (P d.store.arena) := by
  obtain ⟨hd, hgrows, hout⟩ := hc.applied hfout haout h
  obtain ⟨t, -, rfl⟩ := applied_ok.mp h
  refine allNodes_iff.mpr ⟨hP.apply hd hout, ?_⟩
  simp [children, hP.later hgrows hf, hP.later hgrows ha]

/-- **What each node is given holds everywhere** in an expression that is typed. -/
theorem infer {e : Expr} {e' : TypedExpr} (hvisits : Visits home root start e c) (hc : Orderly c)
    (h : infer home e c = (.ok e', d)) : e'.AllNodes (P d.store.arena) := by
  -- a part has the property in the arena it leaves, and that arena only grows while the rest is typed
  induction e generalizing c d e' with
  | literal span v =>
    obtain ⟨rfl, -⟩ := literal_ok.mp h
    exact allNodes_iff.mpr ⟨hP.literal, fun part hpart => absurd hpart not_mem_nil⟩
  | name span p => exact hP.of_reference hc (name_ok.mp h)
  | apply span f a ihf iha =>
    obtain ⟨f', c₁, a', c₂, hf, ha, happlied⟩ := apply_ok.mp h
    obtain ⟨hc₁, -, hfout⟩ := hc.infer hf
    obtain ⟨hc₂, hgrows₂, haout⟩ := hc₁.infer ha
    exact hP.of_applied hc₂ (out_mono hgrows₂ hfout) haout (hP.later hgrows₂ (ihf hvisits.function hc hf))
      (iha (hvisits.argument hf) hc₁ ha) happlied
  | binary span op l r ihl ihr =>
    obtain ⟨f, c₁, l', c₂, r', c₃, half, c₄, hf, hl, hr, hhalf, happlied⟩ := binary_ok.mp h
    obtain ⟨hc₁, -, hfout⟩ := hc.reference hf
    obtain ⟨hc₂, hgrows₂, hlout⟩ := hc₁.infer hl
    obtain ⟨hc₃, hgrows₃, hrout⟩ := hc₂.infer hr
    have hfout := out_mono (hgrows₂.trans hgrows₃) hfout
    have hlout := out_mono hgrows₃ hlout
    obtain ⟨hc₄, hgrows₄, hhalfout⟩ := hc₃.applied hfout hlout hhalf
    have hpartial := hP.of_applied hc₃ hfout hlout (hP.later (hgrows₂.trans hgrows₃) (hP.of_reference hc hf))
      (hP.later hgrows₃ (ihl (hvisits.left hf) hc₁ hl)) hhalf
    exact hP.of_applied hc₄ hhalfout (out_mono hgrows₄ hrout) hpartial
      (hP.later hgrows₄ (ihr (hvisits.right hf hl) hc₂ hr)) happlied
  | unary span op x ihx =>
    obtain ⟨f, c₁, x', c₂, hf, hx, happlied⟩ := unary_ok.mp h
    obtain ⟨hc₁, -, hfout⟩ := hc.reference hf
    obtain ⟨hc₂, hgrows₂, hxout⟩ := hc₁.infer hx
    exact hP.of_applied hc₂ (out_mono hgrows₂ hfout) hxout (hP.later hgrows₂ (hP.of_reference hc hf))
      (ihx (hvisits.operand hf) hc₁ hx) happlied
  | lambda span x body ih =>
    obtain ⟨body', inner, hbody, rfl, rfl⟩ := lambda_ok.mp h
    obtain ⟨hopen, hvar⟩ := hc.openParameter x
    obtain ⟨hinner, hgrows, hout⟩ := hopen.infer hbody
    unfold Context.expose
    rw [arena_closeParameter]
    refine allNodes_iff.mpr ⟨hP.lambda hinner (out_mono hgrows hvar) hout, fun part hpart => ?_⟩
    rw [mem_singleton.mp hpart]
    exact ih hvisits.body hopen hbody
  | conditional span cond a b ihc iha ihb =>
    obtain ⟨cond', c₁, c₂, a', c₃, b', c₄, t, hcond, hexpect, ha, hb, ht, rfl⟩ := conditional_ok.mp h
    obtain ⟨hjoins, rfl⟩ := branchType_ok.mp ht
    obtain ⟨hc₁, -, hcout⟩ := hc.infer hcond
    obtain ⟨hc₂, hgrows₂⟩ := hc₁.expect (orderly_solving.simple c₁ _) hcout hexpect
    obtain ⟨hc₃, hgrows₃, haout⟩ := hc₂.infer ha
    obtain ⟨hc₄, hgrows₄, hbout⟩ := hc₃.infer hb
    have htyped : TypesBranches home root start span cond' a' b' c₄ :=
      ⟨cond, a, b, c, c₁, c₂, c₃, hvisits, hcond, hexpect, ha, hb⟩
    have hjoined : Joined home root start span cond' a' b' t c₄ :=
      ⟨htyped, hc₄, out_mono hgrows₄ haout, hbout, hjoins⟩
    obtain ⟨-, hgrows⟩ := hc₄.unify hjoined.positive hjoined.negative
    refine allNodes_iff.mpr ⟨hP.conditional hjoined, fun part hpart => ?_⟩
    simp only [children, mem_cons, not_mem_nil, or_false] at hpart
    rcases hpart with rfl | rfl | rfl
    · exact hP.later (hgrows₂.trans (hgrows₃.trans (hgrows₄.trans hgrows))) (ihc hvisits.condition hc hcond)
    · exact hP.later (hgrows₄.trans hgrows) (iha (hvisits.positive hcond hexpect) hc₂ ha)
    · exact hP.later hgrows (ihb (hvisits.negative hcond hexpect ha) hc₃ hb)
  | binding span x value body ihvalue ihbody =>
    obtain ⟨t, value', bound, body', inner, hbound, hbody, rfl, rfl⟩ := binding_ok.mp h
    obtain ⟨typed, expected, hvalue, hexpect, hbinds, hseen⟩ := of_boundValue_ok (infer_restores home value) hbound
    obtain ⟨hopen, hvar⟩ := hc.openValue x
    obtain ⟨htyped, hgrows₁, hout⟩ := hopen.infer hvalue
    obtain ⟨-, hgrows₂⟩ := htyped.expect (out_mono hgrows₁ hvar) hout hexpect
    have hboundOrderly := hc.bound hbound
    obtain ⟨hinner, hgrows, hbodyout⟩ := hboundOrderly.infer hbody
    -- binding the name to its value leaves the arena of the unification as it is
    rw [← hbinds.arena] at hgrows₂
    have htype : orderly.Out bound t := by
      rw [hseen]
      exact hboundOrderly.expose (out_mono (hgrows₁.trans hgrows₂) hvar)
    change AllNodes (P inner.store.arena) _
    refine allNodes_iff.mpr ⟨hP.binding hinner (out_mono hgrows htype) hbodyout, fun part hpart => ?_⟩
    simp only [children, mem_cons, not_mem_nil, or_false] at hpart
    rcases hpart with rfl | rfl
    · exact hP.later (hgrows₂.trans hgrows) (ihvalue hvisits.value hopen hvalue)
    · exact ihbody (hvisits.behind hbound) hboundOrderly hbody

end Nodewise

end Typing

end UnionTyping
