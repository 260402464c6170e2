import UnionTyping.Proofs.Instances
import UnionTyping.Proofs.Resolution

/-!
# `Proofs.Lockstep` — typing an expression in two contexts at once

The same expression is typed in two contexts, whose arenas are in step and which agree on the symbols that the
expression uses. If it is typed in the first context, then it is in the second one, and the two typed expressions
differ in their variables only (`infer_follows`). The induction is over the expression. Its invariant is
`Context.InStep`: what is pinned consists of twins, and every symbol that counts has candidates that are twins or
familiar; scopes that are opened on both sides keep it.

What counts as a symbol is fixed beforehand (`Vocabulary`), so that the contexts may differ in all other symbols.
-/

namespace UnionTyping

open List Ty

open Arena (Parallel Twins Mirrors)

/-! ## Typed expressions -/

variable {t : Ty} {e : TypedExpr}

/-- **The typed expressions differ in the variables of their types only.** -/
inductive TypedExpr.Alike (R : TyVar → TyVar → Prop) : TypedExpr → TypedExpr → Prop where
  | literal {s : Span} {t u : Ty} {v : Literal} : Ty.Alike R t u → Alike R (.literal s t v) (.literal s u v)
  | reference {s : Span} {t u x y : Ty} {l : Locator} : Ty.Alike R t u → Ty.Alike R x y →
      Alike R (.reference s t ⟨l, x⟩) (.reference s u ⟨l, y⟩)
  | apply {s : Span} {t u : Ty} {f f' a a' : TypedExpr} : Ty.Alike R t u → Alike R f f' → Alike R a a' →
      Alike R (.apply s t f a) (.apply s u f' a')
  | lambda {s : Span} {t u x y : Ty} {l : Locator} {b b' : TypedExpr} : Ty.Alike R t u → Ty.Alike R x y →
      Alike R b b' → Alike R (.lambda s t ⟨l, x⟩ b) (.lambda s u ⟨l, y⟩ b')
  | conditional {s : Span} {t u : Ty} {c c' a a' b b' : TypedExpr} : Ty.Alike R t u → Alike R c c' →
      Alike R a a' → Alike R b b' → Alike R (.conditional s t c a b) (.conditional s u c' a' b')
  | binding {s : Span} {t u x y : Ty} {l : Locator} {v v' b b' : TypedExpr} : Ty.Alike R t u → Ty.Alike R x y →
      Alike R v v' → Alike R b b' → Alike R (.binding s t ⟨l, x⟩ v b) (.binding s u ⟨l, y⟩ v' b')

namespace TypedExpr

variable {R : TyVar → TyVar → Prop} {e' : TypedExpr}

theorem Alike.type (h : Alike R e e') : Ty.Alike R e.type e'.type := by
  cases h <;> assumption

theorem Alike.mapTypes {f g : Ty → Ty} (hfg : ∀ t u, Ty.Alike R t u → Ty.Alike R (f t) (g u)) (h : Alike R e e') :
    Alike R (e.mapTypes f) (e'.mapTypes g) := by
  induction h with
  | literal ht => exact .literal (hfg _ _ ht)
  | reference ht hx => exact .reference (hfg _ _ ht) (hfg _ _ hx)
  | apply ht _ _ hf ha => exact .apply (hfg _ _ ht) hf ha
  | lambda ht hx _ hb => exact .lambda (hfg _ _ ht) (hfg _ _ hx) hb
  | conditional ht _ _ _ hc ha hb => exact .conditional (hfg _ _ ht) hc ha hb
  | binding ht hx _ _ hv hb => exact .binding (hfg _ _ ht) (hfg _ _ hx) hv hb

theorem Alike.nodes (h : Alike R e e') : Forall₂ (Alike R) e.nodes e'.nodes := by
  induction h with
  | literal ht => exact .cons (.literal ht) .nil
  | reference ht hx => exact .cons (.reference ht hx) .nil
  | apply ht hf ha ihf iha => exact .cons (.apply ht hf ha) (rel_append ihf iha)
  | lambda ht hx hb ihb => exact .cons (.lambda ht hx hb) ihb
  | conditional ht hc ha hb ihc iha ihb =>
    exact .cons (.conditional ht hc ha hb) (rel_append (rel_append ihc iha) ihb)
  | binding ht hx hv hb ihv ihb => exact .cons (.binding ht hx hv hb) (rel_append ihv ihb)

theorem Alike.bindingTypes (h : Alike R e e') : Forall₂ (Ty.Alike R) e.bindingTypes e'.bindingTypes := by
  unfold TypedExpr.bindingTypes
  refine rel_filterMap ?_ h.nodes
  intro x y hxy
  cases hxy with
  | binding _ hx => exact .some hx
  | _ => exact .none

/-- **A body is handed on** if one like it is: the same nodes depend on variables that are not allowed. -/
theorem handOff_follows {a b : Arena} (h : Mirrors R a b) {u : Ty} (htu : Ty.Alike R t u) (hee : Alike R e e')
    {done : TypedExpr} (hrun : e.handOff a t = .ok done) :
    ∃ done', e'.handOff b u = .ok done' ∧ Alike R done done' := by
  have hbody := hee.mapTypes fun _ _ => h.expose
  have hallowed : Forall₂ R ((e.mapTypes a.expose).allowedVars a t) ((e'.mapTypes b.expose).allowedVars b u) :=
    rel_append (h.freeVars htu) (rel_flatMap hbody.bindingTypes fun _ _ => h.freeVars)
  have hany := any_of_forall₂ hbody.nodes fun x _ y hxy => any_of_forall₂ (h.freeVars hxy.type) fun v _ w hvw =>
    congrArg not (contains_of_forall₂ h.pairing.biUnique hallowed hvw)
  unfold handOff at hrun ⊢
  simp only [] at hrun ⊢
  split at hrun
  · rename_i hnone
    cases hrun
    have hnone' : (e'.mapTypes b.expose).danglingNode? b ((e'.mapTypes b.expose).allowedVars b u) = none := by
      unfold danglingNode? at hnone ⊢
      rw [find?_eq_none, ← any_eq_false] at hnone ⊢
      exact hany.symm.trans hnone
    rw [hnone']
    exact ⟨_, rfl, hbody⟩
  · cases hrun

end TypedExpr

/-! ## Scopes -/

/-- **The symbols that count**: any local name, any operator, and others. -/
structure Vocabulary where
  symbols : Locator → Prop
  locals : ∀ x, symbols (.variable x)
  binary : ∀ op : BinaryOp, symbols (Builtin.locator op.symbol)
  unary : ∀ op : UnaryOp, symbols (Builtin.locator op.declaredName)

variable {A B : Arena} {L : Vocabulary}

/-- **The scopes agree on the symbols that count**: the same are defined, their candidates are related, and what is
    pinned consists of twins. -/
structure Environment.InStep (A B : Arena) (L : Vocabulary) (e e' : Environment) : Prop where
  defined : ∀ l, L.symbols l → e.isDefined l = e'.isDefined l
  candidates : ∀ l, L.symbols l → Related A B (e.candidates l) (e'.candidates l)
  pinned : Forall₂ (Alike (A.Twin B)) e.pinnedTypes e'.pinnedTypes

namespace Environment

/-- A scope inside with a local name of one candidate, and with some types pinned. -/
def nest (e : Environment) (x : String) (t : Ty) (pinned : List Ty) : Environment :=
  ⟨⟨[(.variable x, [t])], pinned⟩, e.scopes⟩

theorem candidates_nest (e : Environment) (x : String) (t : Ty) (ts : List Ty) (l : Locator) :
    (e.nest x t ts).candidates l = if l = .variable x then [t] else e.candidates l := by
  cases l with
  | «variable» y =>
    by_cases hy : y = x
    · subst hy
      simp [candidates, nest, scopes, Scope.get?]
    · have hne : Locator.variable y ≠ .variable x := fun h => hy (Locator.variable.inj h)
      rw [if_neg hne]
      simp only [candidates, nest, scopes, findSome?_cons, Scope.get?]
      rw [lookup_cons_ite, if_neg hne, lookup_nil]
  | declaration home y =>
    have hne : Locator.declaration home y ≠ .variable x := Locator.noConfusion
    rw [if_neg hne]
    simp only [candidates, nest, scopes, reverse_cons, filterMap_append, filterMap_cons, Scope.get?]
    rw [lookup_cons_ite, if_neg hne, lookup_nil, filterMap_nil, append_nil]

theorem isDefined_nest (e : Environment) (x : String) (t : Ty) (ts : List Ty) (l : Locator) :
    (e.nest x t ts).isDefined l = (decide (l = .variable x) || e.isDefined l) :=
  (e.enter.isDefined_define (.variable x) l t)

theorem pinnedTypes_nest (e : Environment) (x : String) (t : Ty) (ts : List Ty) :
    (e.nest x t ts).pinnedTypes = e.pinnedTypes ++ ts.reverse := by
  simp [pinnedTypes, nest, scopes]

/-- **Scopes that are opened on both sides.** -/
theorem InStep.nest {e e' : Environment} {x : String} {u : Ty} {ts us : List Ty} (h : InStep A B L e e')
    (htu : Alike (A.Twin B) t u) (hpinned : Forall₂ (Alike (A.Twin B)) ts us) :
    InStep A B L (e.nest x t ts) (e'.nest x u us) := by
  refine ⟨fun l hl => ?_, fun l hl => ?_, ?_⟩
  · rw [isDefined_nest, isDefined_nest, h.defined l hl]
  · rw [candidates_nest, candidates_nest]
    split
    · exact Or.inl (.cons htu .nil)
    · exact h.candidates l hl
  · rw [pinnedTypes_nest, pinnedTypes_nest]
    exact rel_append h.pinned (forall₂_reverse_iff.mpr hpinned)

end Environment

/-- **The contexts are in step.** -/
structure Context.InStep (A B : Arena) (L : Vocabulary) (c c' : Context) : Prop where
  twins : Twins A B c.store.arena c'.store.arena
  modules : c.modules = c'.modules
  scopes : Environment.InStep A B L c.environment c'.environment

namespace Context

variable {c c' d : Context} {u l r l' r' : Ty}

theorem InStep.expose (hc : InStep A B L c c') (htu : Alike (A.Twin B) t u) :
    Alike (A.Twin B) (c.expose t) (c'.expose u) :=
  hc.twins.mirrors.expose htu

/-- A type of no alternatives has none on the other side. -/
theorem InStep.decompose (hc : InStep A B L c c') (htu : Alike (A.Twin B) t u) (hsome : c.decompose t ≠ []) :
    c'.decompose u ≠ [] := by
  intro hnil
  have hdecompose := hc.twins.mirrors.decompose htu
  rw [show c'.store.arena.decompose u = [] from hnil] at hdecompose
  exact hsome (forall₂_nil_right_iff.mp hdecompose)

theorem InStep.unify (hc : InStep A B L c c') (hl : Alike (A.Twin B) l l') (hr : Alike (A.Twin B) r r') :
    (c.unify l r).1 = (c'.unify l' r').1 ∧ InStep A B L (c.unify l r).2 (c'.unify l' r').2 := by
  obtain ⟨hverdict, htwins⟩ := unify_follows c.definitions c'.definitions hl hr hc.twins
  exact ⟨hverdict, htwins, hc.modules, hc.scopes⟩

theorem expect_ok : c.expect l r = (.ok (), d) ↔ c.unify l r = (.unified, d) := by
  unfold expect
  cases c.unify l r with
  | mk verdict after => cases verdict <;> simp

theorem InStep.expect (hc : InStep A B L c c') (hl : Alike (A.Twin B) l l') (hr : Alike (A.Twin B) r r')
    (hrun : c.expect l r = (.ok (), d)) : ∃ d', c'.expect l' r' = (.ok (), d') ∧ InStep A B L d d' := by
  obtain ⟨hverdict, hstep⟩ := hc.unify hl hr
  rw [expect_ok] at hrun
  rw [hrun] at hverdict hstep
  exact ⟨(c'.unify l' r').2, expect_ok.mpr (Prod.ext hverdict.symm rfl), hstep⟩

theorem InStep.apply (hc : InStep A B L c c') (hl : Alike (A.Twin B) l l') (hr : Alike (A.Twin B) r r')
    (hrun : c.apply l r = (.ok t, d)) :
    ∃ u d', c'.apply l' r' = (.ok u, d') ∧ Alike (A.Twin B) t u ∧ InStep A B L d d' := by
  obtain ⟨hresult, rfl⟩ := Prod.mk.inj hrun
  obtain ⟨u, hresult', halike, htwins⟩ := apply_follows c.definitions c'.definitions hl hr hc.twins hresult
  exact ⟨u, _, Prod.ext hresult' rfl, halike, htwins, hc.modules, hc.scopes⟩

/-- **A symbol has a type** if its module is loaded and it has candidates. -/
theorem typeOf_ok {s : Locator} : c.typeOf s = (.ok t, d) ↔
    (∀ home name, s = .declaration home name → c.hasModule home = true) ∧ ∃ arena,
      c.environment.typeOf c.store.arena s = (some t, arena) ∧ d = { c with store := { c.store with arena } } := by
  unfold Context.typeOf
  extract_lets loaded
  have hloaded : loaded = true ↔ ∀ home name, s = .declaration home name → c.hasModule home = true := by
    cases s with
    | declaration home name => simp [loaded]
    | «variable» x => simp [loaded]
  rw [← hloaded]
  by_cases hyes : loaded = true
  · rw [if_pos hyes]
    cases c.environment.typeOf c.store.arena s with
    | mk result arena =>
      cases result with
      | none => simp
      | some u => simp [hyes, eq_comm]
  · rw [if_neg hyes]
    refine iff_of_false ?_ fun h => hyes h.1
    cases s <;> exact nofun

theorem InStep.typeOf (hc : InStep A B L c c') {s : Locator} (hs : L.symbols s) (hrun : c.typeOf s = (.ok t, d)) :
    ∃ u d', c'.typeOf s = (.ok u, d') ∧ Alike (A.Twin B) t u ∧ InStep A B L d d' := by
  obtain ⟨hloaded, arena, hlookup, rfl⟩ := typeOf_ok.mp hrun
  obtain ⟨u, arena', hlookup', halike, htwins⟩ :=
    typeOf_follows hc.twins hc.scopes.pinned (hc.scopes.candidates s hs) hlookup
  refine ⟨u, _, typeOf_ok.mpr ⟨fun home name hname => ?_, arena', hlookup', rfl⟩, halike, htwins, hc.modules, hc.scopes⟩
  rw [Context.hasModule, ← hc.modules]
  exact hloaded home name hname

theorem InStep.note (hc : InStep A B L c c') (level level' : LogLevel) (message message' : Unit → String) :
    InStep A B L (c.note level message) (c'.note level' message') :=
  ⟨hc.twins, hc.modules, hc.scopes⟩

/-- Once the scopes are as they were, the contexts are in step if their arenas are. -/
theorem InStep.restored {d' : Context} (hc : InStep A B L c c') (htwins : Twins A B d.store.arena d'.store.arena)
    (hmodules : d.modules = d'.modules) (henv : d.environment = c.environment)
    (henv' : d'.environment = c'.environment) : InStep A B L d d' := by
  refine ⟨htwins, hmodules, ?_⟩
  rw [henv, henv']
  exact hc.scopes

theorem modules_unpin (c : Context) (t : Ty) : (c.unpin t).modules = c.modules := by
  unfold unpin
  split <;> rfl

end Context

/-! ## Names -/

/-- **The expression uses symbols that count only**: what it refers to by qualified names, and what its unqualified
    names may refer to where they are not bound. -/
def Expr.Known (home : String) (L : Vocabulary) : (bound : List String) → Expr → Prop
  | _, .literal _ _ => True
  | bound, .name _ p => (∀ q, p.home = some q → L.symbols (.declaration q p.name)) ∧
      (p.home = none → p.name ∉ bound →
        L.symbols (.declaration home p.name) ∧ L.symbols (Builtin.locator p.name))
  | bound, .apply _ f a => f.Known home L bound ∧ a.Known home L bound
  | bound, .binary _ _ l r => l.Known home L bound ∧ r.Known home L bound
  | bound, .unary _ _ x => x.Known home L bound
  | bound, .lambda _ x b => b.Known home L (x.name :: bound)
  | bound, .conditional _ c a b => c.Known home L bound ∧ a.Known home L bound ∧ b.Known home L bound
  | bound, .binding _ x v b => v.Known home L (x.name :: bound) ∧ b.Known home L (x.name :: bound)

/-- The names are local in the context. -/
def Context.LocalNames (c : Context) (names : List String) : Prop :=
  ∀ x ∈ names, c.environment.isDefined (.variable x) = true

/-- Whether names are local is a matter of the scopes alone. -/
theorem Context.LocalNames.of_environment_eq {c d : Context} {names : List String} (h : c.LocalNames names)
    (hscopes : d.environment = c.environment) : d.LocalNames names := by
  intro x hx
  rw [hscopes]
  exact h x hx

/-- Inside, a name is local beside those that are outside. -/
theorem Context.LocalNames.inside {c inner : Context} {x : String} {names : List String} (h : c.LocalNames names)
    (hinner : ∀ l, inner.environment.isDefined l = (decide (l = .variable x) || c.environment.isDefined l)) :
    inner.LocalNames (x :: names) := by
  intro y hy
  rw [hinner]
  rcases mem_cons.mp hy with rfl | hy
  · rw [decide_eq_true rfl, Bool.true_or]
  · rw [h y hy, Bool.or_true]

namespace Typing

open Check

variable {span : Span} {home : String} {c c' d : Context} {bound : List String}

/-- **A name leads to the same symbol on both sides**, and to one that counts. -/
theorem resolve_follows (hc : c.InStep A B L c') {p : Path} (hknown : (Expr.name span p).Known home L bound)
    (hbound : c.LocalNames bound) : resolve c' home p = resolve c home p ∧ L.symbols (resolve c home p) := by
  obtain ⟨qualifier, x⟩ := p
  cases qualifier with
  | some qualifier => exact ⟨rfl, hknown.1 qualifier rfl⟩
  | none =>
    have hvar := hc.scopes.defined _ (L.locals x)
    simp only [resolve, find?_cons, find?_nil, ← hvar]
    cases hlocal : c.environment.isDefined (.variable x) with
    | true => exact ⟨rfl, L.locals x⟩
    | false =>
      -- a name that is not local is not bound either
      have hfree : x ∉ bound := fun hmem => by cases hlocal.symm.trans (hbound x hmem)
      obtain ⟨hdecl, hop⟩ := hknown.2 rfl hfree
      simp only [← hc.scopes.defined _ hdecl, ← hc.scopes.defined _ hop]
      cases c.environment.isDefined (.declaration home x) with
      | true => exact ⟨trivial, hdecl⟩
      | false =>
        cases c.environment.isDefined (Builtin.locator x) with
        | true => exact ⟨trivial, hop⟩
        | false => exact ⟨trivial, L.locals x⟩

theorem reference_follows (hc : c.InStep A B L c') {l : Locator} (hl : L.symbols l)
    (hrun : reference span l c = (.ok e, d)) :
    ∃ e' d', reference span l c' = (.ok e', d') ∧ TypedExpr.Alike (A.Twin B) e e' ∧ d.InStep A B L d' := by
  obtain ⟨t, hlookup, rfl⟩ := reference_ok.mp hrun
  obtain ⟨u, d', hlookup', halike, hd⟩ := hc.typeOf hl hlookup
  exact ⟨_, d', reference_ok.mpr ⟨u, hlookup', rfl⟩, .reference halike halike, hd⟩

theorem applied_follows (hc : c.InStep A B L c') {f f' a a' : TypedExpr} (hf : TypedExpr.Alike (A.Twin B) f f')
    (ha : TypedExpr.Alike (A.Twin B) a a') (hrun : applied span f a c = (.ok e, d)) :
    ∃ e' d', applied span f' a' c' = (.ok e', d') ∧ TypedExpr.Alike (A.Twin B) e e' ∧ d.InStep A B L d' := by
  obtain ⟨t, happly, rfl⟩ := applied_ok.mp hrun
  obtain ⟨u, d', happly', halike, hd⟩ := hc.apply hf.type ha.type happly
  exact ⟨_, d', applied_ok.mpr ⟨u, happly', rfl⟩, .apply halike hf ha, hd⟩

/-- **The branches of a conditional** come to the same on both sides. -/
theorem branchType_follows (hc : c.InStep A B L c') {a b a' b' : Ty} (ha : Alike (A.Twin B) a a')
    (hb : Alike (A.Twin B) b b') (hrun : branchType span a b c = (.ok t, d)) :
    ∃ u d', branchType span a' b' c' = (.ok u, d') ∧ Alike (A.Twin B) t u ∧ d.InStep A B L d' := by
  obtain ⟨hjoins, rfl⟩ := branchType_ok.mp hrun
  obtain ⟨hverdict, hd⟩ := hc.unify ha hb
  rcases hjoins with ⟨hunified, rfl⟩ | ⟨hmismatch, hunion⟩
  · exact ⟨_, _, branchType_ok.mpr ⟨Or.inl ⟨hverdict ▸ hunified, rfl⟩, rfl⟩, hd.expose ha, hd⟩
  · have hjoined := Alike.union? (Arena.twin_pairing A B) (.cons (hd.expose ha) (.cons (hd.expose hb) .nil))
    rw [hunion] at hjoined
    generalize hunion' : union? [(c'.unify a' b').2.expose a', (c'.unify a' b').2.expose b'] = joined at hjoined
    cases hjoined with
    | some halike =>
      exact ⟨_, _, branchType_ok.mpr ⟨Or.inr ⟨hverdict ▸ hmismatch, hunion'⟩, rfl⟩, halike, hd⟩

/-! ## Scopes inside -/

/-- The scopes of a parameter, or of a local name whose value is being typed. -/
theorem openParameter_follows (hc : c.InStep A B L c') (x : Ident) :
    (openParameter x c).2.InStep A B L (openParameter x c').2 ∧
      Alike (A.Twin B) (openParameter x c).1 (openParameter x c').1 := by
  have hvar : Alike (A.Twin B) (openParameter x c).1 (openParameter x c').1 := .var hc.twins.twin_fresh
  exact ⟨⟨hc.twins.fresh, hc.modules, hc.scopes.nest hvar (.cons hvar .nil)⟩, hvar⟩

theorem modules_closeParameter (v : Ty) (c : Context) : (closeParameter v c).modules = c.modules :=
  c.modules_unpin v

/-- A value that is bound to its name has a type, and no module is loaded on the way. -/
theorem boundValue_rest {x : Ident} {value : Check TypedExpr} {value' : TypedExpr} {inner bound : Context}
    (hrestores : ∀ c, restoring.Step c (value c).2) (hvalue : value (openValue x c) = (.ok value', inner))
    (hexpect : inner.expect (openParameter x c).1 value'.type = (.ok (), d))
    (h : boundValue x value c.enter = (.ok (t, value'), bound)) :
    d.decompose (openParameter x c).1 ≠ [] ∧ bound.modules = d.modules := by
  have hunpin := unpin_value hrestores hvalue hexpect
  rcases boundValue_typed (typeValue_ok.mpr ⟨value', inner, hvalue, hexpect, rfl⟩) with
    ⟨-, _, _, hfailed⟩ | ⟨hsome, message, hbound⟩
  · cases hfailed.symm.trans h
  · rw [hunpin] at hsome
    obtain ⟨-, rfl⟩ := Prod.mk.inj (h.symm.trans hbound)
    exact ⟨hsome, d.modules_unpin _⟩

/-- **A local binding follows** if its value does; behind it the name stands for twins. -/
theorem boundValue_follows (hc : c.InStep A B L c') {x : Ident} {value : Check TypedExpr}
    (hrestores : ∀ c, restoring.Step c (value c).2)
    (hvalue : ∀ e d, value (openValue x c) = (.ok e, d) → ∃ e' d', value (openValue x c') = (.ok e', d') ∧
      TypedExpr.Alike (A.Twin B) e e' ∧ d.InStep A B L d')
    {bound : Context} (hrun : boundValue x value c.enter = (.ok (t, e), bound)) :
    ∃ t' e' bound', boundValue x value c'.enter = (.ok (t', e'), bound') ∧ Alike (A.Twin B) t t' ∧
      TypedExpr.Alike (A.Twin B) e e' ∧ bound.InStep A B L bound' := by
  obtain ⟨inner, d, hinner, hexpect, hbinds, rfl⟩ := of_boundValue_ok hrestores hrun
  obtain ⟨hsome, hmodules⟩ := boundValue_rest hrestores hinner hexpect hrun
  obtain ⟨-, hvar⟩ := openParameter_follows hc x
  obtain ⟨e', inner', hinner', halike, hstep⟩ := hvalue e inner hinner
  obtain ⟨d', hexpect', hd⟩ := hstep.expect hvar halike.type hexpect
  obtain ⟨t', bound', hrun', hbinds'⟩ := boundValue_ok hrestores hinner' hexpect' (hd.decompose hvar hsome)
  obtain ⟨-, hmodules'⟩ := boundValue_rest hrestores hinner' hexpect' hrun'
  have hbound : bound.InStep A B L bound' := by
    refine ⟨?_, ?_, ?_⟩
    · rw [hbinds.arena, hbinds'.arena]
      exact hd.twins
    · rw [hmodules, hmodules', hd.modules]
    · rw [hbinds.environment, hbinds'.environment]
      exact hc.scopes.nest hvar .nil
  obtain ⟨_, _, -, -, -, rfl⟩ := of_boundValue_ok hrestores hrun'
  exact ⟨_, e', bound', hrun', hbound.expose hvar, halike, hbound⟩

/-! ## Expressions -/

/-- Names that are bound stay so while a part is typed, for it restores the scopes. -/
theorem infer_localNames (h : c.LocalNames bound) {e : Expr} {typed : TypedExpr}
    (hrun : infer home e c = (.ok typed, d)) : d.LocalNames bound :=
  h.of_environment_eq (infer_environment hrun)

/-- **Typing follows**: an expression that is typed in one context is typed in the other one, and the typed expressions
    are alike. -/
theorem infer_follows {e : Expr} (hknown : e.Known home L bound) (hbound : c.LocalNames bound) (hc : c.InStep A B L c')
    {typed : TypedExpr} (hrun : infer home e c = (.ok typed, d)) :
    ∃ typed' d', infer home e c' = (.ok typed', d') ∧ TypedExpr.Alike (A.Twin B) typed typed' ∧ d.InStep A B L d' := by
  induction e generalizing c c' d typed bound with
  | literal span v =>
    obtain ⟨rfl, rfl⟩ := literal_ok.mp hrun
    refine ⟨_, c', literal_ok.mpr ⟨rfl, rfl⟩, .literal ?_, hc⟩
    cases v <;> exact .simple _
  | name span p =>
    obtain ⟨hresolve, hcounts⟩ := resolve_follows hc hknown hbound
    obtain ⟨e', d', hrun', halike, hd⟩ := reference_follows hc hcounts (name_ok.mp hrun)
    exact ⟨e', d', name_ok.mpr (hresolve ▸ hrun'), halike, hd⟩
  | apply span f a ihf iha =>
    obtain ⟨f₁, c₁, a₁, c₂, hf, ha, happlied⟩ := apply_ok.mp hrun
    obtain ⟨f₁', c₁', hf', hfalike, hc₁⟩ := ihf hknown.1 hbound hc hf
    obtain ⟨a₁', c₂', ha', haalike, hc₂⟩ := iha hknown.2 (infer_localNames hbound hf) hc₁ ha
    obtain ⟨e', d', happlied', halike, hd⟩ := applied_follows hc₂ hfalike haalike happlied
    exact ⟨e', d', apply_ok.mpr ⟨f₁', c₁', a₁', c₂', hf', ha', happlied'⟩, halike, hd⟩
  | binary span op l r ihl ihr =>
    obtain ⟨f, c₁, l₁, c₂, r₁, c₃, half, c₄, hop, hl, hr, hhalf, happlied⟩ := binary_ok.mp hrun
    obtain ⟨f', c₁', hop', hfalike, hc₁⟩ := reference_follows hc (L.binary op) hop
    have hbound₁ : c₁.LocalNames bound := hbound.of_environment_eq (reference_erases hop).2.1
    obtain ⟨l₁', c₂', hl', hlalike, hc₂⟩ := ihl hknown.1 hbound₁ hc₁ hl
    obtain ⟨r₁', c₃', hr', hralike, hc₃⟩ := ihr hknown.2 (infer_localNames hbound₁ hl) hc₂ hr
    obtain ⟨half', c₄', hhalf', hhalfalike, hc₄⟩ := applied_follows hc₃ hfalike hlalike hhalf
    obtain ⟨e', d', happlied', halike, hd⟩ := applied_follows hc₄ hhalfalike hralike happlied
    exact ⟨e', d', binary_ok.mpr ⟨f', c₁', l₁', c₂', r₁', c₃', half', c₄', hop', hl', hr', hhalf', happlied'⟩,
      halike, hd⟩
  | unary span op x ihx =>
    obtain ⟨f, c₁, x₁, c₂, hop, hx, happlied⟩ := unary_ok.mp hrun
    obtain ⟨f', c₁', hop', hfalike, hc₁⟩ := reference_follows hc (L.unary op) hop
    have hbound₁ : c₁.LocalNames bound := hbound.of_environment_eq (reference_erases hop).2.1
    obtain ⟨x₁', c₂', hx', hxalike, hc₂⟩ := ihx hknown hbound₁ hc₁ hx
    obtain ⟨e', d', happlied', halike, hd⟩ := applied_follows hc₂ hfalike hxalike happlied
    exact ⟨e', d', unary_ok.mpr ⟨f', c₁', x₁', c₂', hop', hx', happlied'⟩, halike, hd⟩
  | lambda span x body ih =>
    obtain ⟨body₁, inner, hbody, rfl, rfl⟩ := lambda_ok.mp hrun
    obtain ⟨hopen, hvar⟩ := openParameter_follows hc x
    obtain ⟨body₁', inner', hbody', halike, hinner⟩ :=
      ih hknown (hbound.inside (isDefined_openParameter x c)) hopen hbody
    have hrun' : infer home (.lambda span x body) c' = _ := lambda_ok.mpr ⟨body₁', inner', hbody', rfl, rfl⟩
    have hd : Context.InStep A B L (closeParameter (openParameter x c).1 inner)
        (closeParameter (openParameter x c').1 inner') := by
      refine hc.restored ?_ ?_ (infer_environment hrun) (infer_environment hrun')
      · rw [arena_closeParameter, arena_closeParameter]
        exact hinner.twins
      · rw [modules_closeParameter, modules_closeParameter, hinner.modules]
    exact ⟨_, _, hrun', .lambda (.func (hd.expose hvar) halike.type) hvar halike, hd⟩
  | conditional span cond a b ihc iha ihb =>
    obtain ⟨cond₁, c₁, c₂, a₁, c₃, b₁, c₄, t, hcond, hexpect, ha, hb, ht, rfl⟩ := conditional_ok.mp hrun
    obtain ⟨cond₁', c₁', hcond', hcalike, hc₁⟩ := ihc hknown.1 hbound hc hcond
    obtain ⟨c₂', hexpect', hc₂⟩ := hc₁.expect (.simple _) hcalike.type hexpect
    have hbound₂ : c₂.LocalNames bound :=
      (infer_localNames hbound hcond).of_environment_eq (expect_environment hexpect)
    obtain ⟨a₁', c₃', ha', haalike, hc₃⟩ := iha hknown.2.1 hbound₂ hc₂ ha
    obtain ⟨b₁', c₄', hb', hbalike, hc₄⟩ := ihb hknown.2.2 (infer_localNames hbound₂ ha) hc₃ hb
    obtain ⟨t', d', ht', halike, hd⟩ := branchType_follows hc₄ haalike.type hbalike.type ht
    exact ⟨_, d', conditional_ok.mpr ⟨cond₁', c₁', c₂', a₁', c₃', b₁', c₄', t', hcond', hexpect', ha', hb', ht', rfl⟩,
      .conditional halike hcalike haalike hbalike, hd⟩
  | binding span x value body ihv ihb =>
    obtain ⟨t, value₁, after, body₁, inner, hvalue, hbody, rfl, rfl⟩ := binding_ok.mp hrun
    have hopen : (openValue x c).InStep A B L (openValue x c') := (openParameter_follows hc x).1.note _ _ _ _
    have hlocals : (openValue x c).LocalNames (x.name :: bound) := hbound.inside (isDefined_openParameter x c)
    obtain ⟨_, _, _, _, hbinds, -⟩ := of_boundValue_ok (infer_restores home value) hvalue
    obtain ⟨t', value₁', after', hvalue', htalike, hvalike, hafter⟩ :=
      boundValue_follows hc (infer_restores home value) (fun e d => ihv hknown.1 hlocals hopen) hvalue
    have hscope : ∀ l, after.environment.isDefined l =
        (decide (l = .variable x.name) || c.environment.isDefined l) := by
      rw [hbinds.environment]
      exact fun l => c.enter.environment.isDefined_define (.variable x.name) l (openParameter x c).1
    obtain ⟨body₁', inner', hbody', hbalike, hinner⟩ := ihb hknown.2 (hbound.inside hscope) hafter hbody
    have hrun' : infer home (.binding span x value body) c' = _ :=
      binding_ok.mpr ⟨t', value₁', after', body₁', inner', hvalue', hbody', rfl, rfl⟩
    refine ⟨_, _, hrun', .binding hbalike.type htalike hvalike hbalike, ?_⟩
    exact hc.restored hinner.twins hinner.modules (infer_environment hrun) (infer_environment hrun')

end Typing
end UnionTyping
