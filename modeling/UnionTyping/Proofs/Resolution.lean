import UnionTyping.Proofs.Handoff
import UnionTyping.Proofs.Lexical

/-!
# `Proofs.Resolution` — what the names of a typed expression refer to

Typing finds out what a name refers to from the scopes that are open when it gets there. That is what lexical
scope says: a typed expression without its types is the expression as it was written, with operators as
applications of their symbols, and each name as the symbol that its position gives it (`infer_resolves`).

A module is typed group by group, so that a name may be looked up before a later declaration of that name is
defined. Free names are what groups are made from, however: the declaration that a name refers to is in the same
group or in an earlier one (`use_in_group`), and the names of a module refer to what they would if all of it was
declared at once (`checkProgram_resolves`).
-/

namespace UnionTyping

open List Environment Locator TypedExpr

/-! ## Expressions without types -/

/-- An expression in which names are symbols and operators are applications. -/
inductive Resolved where
  | literal (span : Span) (value : Literal)
  | reference (span : Span) (target : Locator)
  | apply (span : Span) (function argument : Resolved)
  | lambda (span : Span) (param : Locator) (body : Resolved)
  | conditional (span : Span) (condition positive negative : Resolved)
  | binding (span : Span) (bound : Locator) (value body : Resolved)
deriving DecidableEq

namespace TypedExpr

/-- The expression without its types. -/
def erase : TypedExpr → Resolved
  | .literal s _ v => .literal s v
  | .reference s _ r => .reference s r.symbol
  | .apply s _ f a => .apply s f.erase a.erase
  | .lambda s _ p b => .lambda s p.symbol b.erase
  | .conditional s _ c a b => .conditional s c.erase a.erase b.erase
  | .binding s _ x v b => .binding s x.symbol v.erase b.erase

theorem erase_mapTypes (f : Ty → Ty) (e : TypedExpr) : (e.mapTypes f).erase = e.erase := by
  induction e with
  | literal => rfl
  | reference => rfl
  | apply s t g a hg ha => simp [mapTypes, erase, hg, ha]
  | lambda s t p b hb => simp [mapTypes, erase, hb]
  | conditional s t c a b hc ha hb => simp [mapTypes, erase, hc, ha, hb]
  | binding s t x v b hv hb => simp [mapTypes, erase, hv, hb]

end TypedExpr

/-- What a path refers to, given which names are local and which symbols are defined. -/
def Path.target (home : String) (isLocal : String → Bool) (defined : Locator → Bool) (p : Path) : Locator :=
  match p.home with
  | some qualifier => .declaration qualifier p.name
  | none =>
      if isLocal p.name then .variable p.name
      else if defined (.declaration home p.name) then .declaration home p.name
      else Builtin.locator p.name

theorem Path.target_congr {home : String} {isLocal isLocal' : String → Bool} {defined defined' : Locator → Bool}
    (p : Path) (hlocal : isLocal p.name = isLocal' p.name)
    (hdefined : defined (.declaration home p.name) = defined' (.declaration home p.name)) :
    p.target home isLocal defined = p.target home isLocal' defined' := by
  unfold target
  rw [hlocal, hdefined]

namespace Expr

/-- The expression with its names as symbols, which may depend on where they are, and its operators as
    applications of the symbols they are declared as. -/
def desugar : Expr → (locate : List Nat → Path → Locator) → Resolved
  | .literal s v, _ => .literal s v
  | .name s p, locate => .reference s (locate [] p)
  | .apply s f a, locate =>
      .apply s (f.desugar fun q => locate (0 :: q)) (a.desugar fun q => locate (1 :: q))
  | .binary s op l r, locate =>
      .apply s (.apply s (.reference s (Builtin.locator op.symbol)) (l.desugar fun q => locate (0 :: q)))
        (r.desugar fun q => locate (1 :: q))
  | .unary s op x, locate =>
      .apply s (.reference s (Builtin.locator op.declaredName)) (x.desugar fun q => locate (0 :: q))
  | .lambda s x b, locate => .lambda s (.variable x.name) (b.desugar fun q => locate (0 :: q))
  | .conditional s c a b, locate =>
      .conditional s (c.desugar fun q => locate (0 :: q)) (a.desugar fun q => locate (1 :: q))
        (b.desugar fun q => locate (2 :: q))
  | .binding s x v b, locate =>
      .binding s (.variable x.name) (v.desugar fun q => locate (0 :: q)) (b.desugar fun q => locate (1 :: q))

/-- **Lexical scope**: at a position in the scope of a name, the name is a local variable. Elsewhere it is a
    declaration of the module, if that is defined, and an operator otherwise. -/
def lexically (e : Expr) (home : String) (defined : Locator → Bool) (p : List Nat) (path : Path) : Locator :=
  path.target home (fun x => decide (e.InScope p x)) defined

/-- Only the positions of names matter. -/
theorem desugar_congr {e : Expr} {locate locate' : List Nat → Path → Locator}
    (h : ∀ p span path, e.at? p = some (.name span path) → locate p path = locate' p path) :
    e.desugar locate = e.desugar locate' := by
  -- a name of a part is a name of the whole, at the part's place
  have hpart : ∀ {e : Expr} {locate locate' : List Nat → Path → Locator} (i : Nat) {child : Expr},
      (∀ p span path, e.at? p = some (.name span path) → locate p path = locate' p path) →
      e.children[i]? = some child → ∀ p span path, child.at? p = some (.name span path) →
        locate (i :: p) path = locate' (i :: p) path := by
    intro e locate locate' i child h hchild p span path hp
    refine h (i :: p) span path ?_
    rw [at?, hchild]
    exact hp
  induction e generalizing locate locate' with
  | literal s v => rfl
  | name s path => simp [desugar, h [] s path rfl]
  | apply s f a hf ha => simp [desugar, hf (hpart 0 h rfl), ha (hpart 1 h rfl)]
  | binary s op l r hl hr => simp [desugar, hl (hpart 0 h rfl), hr (hpart 1 h rfl)]
  | unary s op x hx => simp [desugar, hx (hpart 0 h rfl)]
  | lambda s x b hb => simp [desugar, hb (hpart 0 h rfl)]
  | conditional s c a b hc ha hb =>
    simp [desugar, hc (hpart 0 h rfl), ha (hpart 1 h rfl), hb (hpart 2 h rfl)]
  | binding s x v b hv hb => simp [desugar, hv (hpart 0 h rfl), hb (hpart 1 h rfl)]

end Expr

/-! ## Symbols that are defined -/

theorem Scope.isSome_get?_define (s : Scope) (l k : Locator) (t : Ty) :
    ((s.define l t).get? k).isSome = (decide (k = l) || (s.get? k).isSome) := by
  by_cases hkl : k = l
  · subst hkl
    have hlookup : ∀ symbols : List (Locator × List Ty), ((addCandidate k t symbols).lookup k).isSome = true := by
      intro symbols
      induction symbols with
      | nil => simp [addCandidate]
      | cons entry rest ih =>
        obtain ⟨m, ts⟩ := entry
        unfold addCandidate
        by_cases hm : m = k
        · simp [hm]
        · rw [if_neg hm, lookup_cons_ite, if_neg (Ne.symm hm)]
          exact ih
    rw [decide_eq_true rfl, Bool.true_or]
    exact hlookup s.symbols
  · rw [Scope.get?_define hkl, decide_eq_false hkl, Bool.false_or]

namespace Environment

variable (e : Environment) (l k : Locator) (t : Ty)

theorem isDefined_define : (e.define l t).isDefined k = (decide (k = l) || e.isDefined k) := by
  simp only [isDefined, scopes, define, any_cons, Scope.isSome_get?_define, Bool.or_assoc]

theorem isDefined_pinAll (ts : List Ty) : (e.pinAll ts).isDefined k = e.isDefined k := rfl

theorem isDefined_defineAll (entries : List (Locator × Ty)) :
    (e.defineAll entries).isDefined k = (decide (k ∈ entries.map Prod.fst) || e.isDefined k) := by
  induction entries generalizing e with
  | nil => simp [defineAll]
  | cons first rest ih =>
    have hrest := ih (e.define first.1 first.2)
    rw [isDefined_define] at hrest
    refine hrest.trans ?_
    simp only [map_cons, mem_cons, Bool.decide_or]
    rw [← Bool.or_assoc, Bool.or_comm (decide (k ∈ _))]

theorem isDefined_forget (h : k ≠ l) : (e.forget l).isDefined k = e.isDefined k := by
  simp only [isDefined, scopes, forget, any_cons, any_map, Function.comp_def, Scope.get?_forget h]

theorem isDefined_forgetAll {symbols : List Locator} (h : k ∉ symbols) :
    (symbols.foldl forget e).isDefined k = e.isDefined k := by
  induction symbols generalizing e with
  | nil => rfl
  | cons l rest ih =>
    obtain ⟨hl, hrest⟩ := ne_and_not_mem_of_not_mem_cons h
    exact (ih (e.forget l) hrest).trans (e.isDefined_forget l k hl)

/-- Symbols that are forgotten and defined anew are defined, beside those that were. -/
theorem isDefined_redefine (entries : List (Locator × Ty)) :
    (((entries.map Prod.fst).foldl forget e).defineAll entries).isDefined k =
      (decide (k ∈ entries.map Prod.fst) || e.isDefined k) := by
  rw [isDefined_defineAll]
  by_cases hk : k ∈ entries.map Prod.fst
  · rw [decide_eq_true hk, Bool.true_or, Bool.true_or]
  · rw [isDefined_forgetAll e k hk]

/-- A symbol with a candidate is defined. -/
theorem isDefined_of_candidates {e : Environment} {l : Locator} (h : e.candidates l ≠ []) : e.isDefined l = true := by
  obtain ⟨t, ht⟩ := exists_mem_of_ne_nil _ h
  by_contra hnot
  have hnone : ∀ s ∈ e.scopes, s.get? l = none := by
    intro s hs
    have hs := any_eq_false.mp (Bool.not_eq_true _ ▸ hnot) s hs
    simpa using hs
  refine h ?_
  cases l with
  | «variable» x =>
    have hfind : e.scopes.findSome? (·.get? (.variable x)) = none := findSome?_eq_none_iff.mpr hnone
    simp [candidates, hfind]
  | declaration home x =>
    have hfilter : e.scopes.reverse.filterMap (·.get? (.declaration home x)) = [] :=
      filterMap_eq_nil_iff.mpr fun s hs => hnone s (mem_reverse.mp hs)
    simp [candidates, hfilter]

end Environment

namespace Typing

open Check

/-! ## Expressions -/

variable {home : String} {c d : Context} {decls : List Decl}

/-- A symbol that has a type is defined. -/
theorem isDefined_of_typeOf {l : Locator} {t : Ty} (h : c.typeOf l = (.ok t, d)) :
    c.environment.isDefined l = true := by
  refine isDefined_of_candidates fun hnone => ?_
  have hmissing : c.environment.typeOf c.store.arena l = (none, c.store.arena) := by
    simp [typeOf, hnone]
  simp only [Context.typeOf, hmissing] at h
  split at h
  · split at h <;> cases h
  · cases h

/-- **A path that resolves to something defined** resolves as local names and declarations say. -/
theorem resolve_eq_target {p : Path} (h : c.environment.isDefined (resolve c home p) = true) :
    resolve c home p = p.target home (fun x => c.environment.isDefined (.variable x)) c.environment.isDefined := by
  obtain ⟨qualifier, x⟩ := p
  cases qualifier with
  | some qualifier => rfl
  | none =>
    simp only [resolve, Path.target, find?_cons, find?_nil] at h ⊢
    cases hvar : c.environment.isDefined (.variable x) with
    | true => simp
    | false =>
      cases hdecl : c.environment.isDefined (.declaration home x) with
      | true => simp
      | false =>
        cases hop : c.environment.isDefined (Builtin.locator x) with
        | true => simp
        | false =>
          rw [hvar, hdecl, hop] at h
          rw [Option.getD_none, hvar] at h
          cases h

theorem isDefined_openParameter (x : Ident) (c : Context) (l : Locator) :
    (openParameter x c).2.environment.isDefined l = (decide (l = .variable x.name) || c.environment.isDefined l) :=
  c.enter.environment.isDefined_define (.variable x.name) l (openParameter x c).1

/-- Where the names of an expression lead, in scopes where some names are local already. -/
def targets (home : String) (env : Environment) (e : Expr) (p : List Nat) (path : Path) : Locator :=
  path.target home (fun x => e.inScope x p || env.isDefined (.variable x)) env.isDefined

/-- In a part of an expression names lead where they do in the whole, if what the expression introduces is
    defined there. -/
theorem targets_child {e child : Expr} {env env' : Environment} {i : Nat} (hchild : e.children[i]? = some child)
    (henv : ∀ l, env'.isDefined l = (decide (e.binder?.map Locator.variable = some l) || env.isDefined l)) :
    (fun q => targets home env e (i :: q)) = targets home env' child := by
  funext q path
  refine path.target_congr ?_ ?_
  · have hbinder : (e.binder?.map Locator.variable = some (.variable path.name)) ↔ e.binder? = some path.name := by
      cases e.binder? with
      | none => simp
      | some y => simp
    rw [henv, Expr.inScope, hchild, Option.any_some, decide_eq_decide.mpr hbinder, Bool.or_assoc, Bool.or_left_comm]
  · rw [henv, decide_eq_false, Bool.false_or]
    cases e.binder? with
    | none => simp
    | some y => simp

/-- Where an expression introduces nothing, its parts are in the same scopes. -/
theorem targets_same {e child : Expr} {env : Environment} {i : Nat} (hbinder : e.binder? = none)
    (hchild : e.children[i]? = some child) :
    (fun q => targets home env e (i :: q)) = targets home env child := by
  refine targets_child hchild fun l => ?_
  rw [hbinder, Option.map_none, decide_eq_false (by nofun), Bool.false_or]

section Restored

variable {span : Span} {e : TypedExpr}

theorem reference_erases {l : Locator} (h : reference span l c = (.ok e, d)) :
    e.erase = .reference span l ∧ d.environment = c.environment ∧ c.environment.isDefined l = true := by
  obtain ⟨t, ht, rfl⟩ := reference_ok.mp h
  have hrestores := (typeOf_restores c l).1
  rw [ht] at hrestores
  exact ⟨rfl, hrestores, isDefined_of_typeOf ht⟩

theorem applied_erases {f a : TypedExpr} (h : applied span f a c = (.ok e, d)) :
    e.erase = .apply span f.erase a.erase ∧ d.environment = c.environment := by
  obtain ⟨t, ht, rfl⟩ := applied_ok.mp h
  have hrestores := (restoring_solving.apply c f.type a.type trivial trivial trivial).2.1.1
  rw [ht] at hrestores
  exact ⟨rfl, hrestores⟩

end Restored

/-- **Typing resolves names by their positions**, whatever names are local where it begins. -/
theorem infer_resolves {e : Expr} {e' : TypedExpr} (h : infer home e c = (.ok e', d)) :
    e'.erase = e.desugar (targets home c.environment e) := by
  induction e generalizing c d e' with
  | literal span v =>
    obtain ⟨rfl, rfl⟩ := literal_ok.mp h
    rfl
  | name span path =>
    obtain ⟨herase, -, hdefined⟩ := reference_erases (name_ok.mp h)
    rw [herase, resolve_eq_target hdefined]
    rfl
  | apply span f a hf ha =>
    obtain ⟨f', c₁, a', c₂, hinferf, hinfera, happlied⟩ := apply_ok.mp h
    rw [(applied_erases happlied).1, hf hinferf, ha hinfera, infer_environment hinferf, Expr.desugar,
      targets_same rfl rfl, targets_same rfl rfl]
  | binary span op l r hl hr =>
    obtain ⟨f, c₁, l', c₂, r', c₃, half, c₄, hop, hinferl, hinferr, hhalf, happlied⟩ := binary_ok.mp h
    obtain ⟨herase, hc₁, -⟩ := reference_erases hop
    rw [(applied_erases happlied).1, (applied_erases hhalf).1, herase, hl hinferl, hr hinferr,
      infer_environment hinferl, hc₁, Expr.desugar, targets_same rfl rfl, targets_same rfl rfl]
  | unary span op x hx =>
    obtain ⟨f, c₁, x', c₂, hop, hinferx, happlied⟩ := unary_ok.mp h
    obtain ⟨herase, hc₁, -⟩ := reference_erases hop
    rw [(applied_erases happlied).1, herase, hx hinferx, hc₁, Expr.desugar, targets_same rfl rfl]
  | lambda span x body hbody =>
    obtain ⟨body', inner, hinfer, -, rfl⟩ := lambda_ok.mp h
    rw [erase, hbody hinfer, Expr.desugar, targets_child rfl]
    intro l
    rw [isDefined_openParameter]
    simp [Expr.binder?, eq_comm]
  | conditional span cond a b hcond ha hb =>
    obtain ⟨cond', c₁, c₂, a', c₃, b', c₄, t, hinferc, hexpect, hinfera, hinferb, -, rfl⟩ := conditional_ok.mp h
    have hc₂ : c₂.environment = c.environment := (expect_environment hexpect).trans (infer_environment hinferc)
    rw [erase, hcond hinferc, ha hinfera, hb hinferb, infer_environment hinfera, hc₂, Expr.desugar,
      targets_same rfl rfl, targets_same rfl rfl, targets_same rfl rfl]
  | binding span x value body hvalue hbody =>
    obtain ⟨t, value', bound, body', inner, hbound, hinfer, -, rfl⟩ := binding_ok.mp h
    obtain ⟨inner', after, hinferv, -, hbinds, -⟩ := of_boundValue_ok (infer_restores home value) hbound
    -- the name is in scope for the value, pinned, and stays so for the expression behind it
    have hscope : ∀ l, bound.environment.isDefined l =
        (decide ((Expr.binding span x value body).binder?.map Locator.variable = some l) ||
          c.environment.isDefined l) := by
      intro l
      rw [hbinds.environment, isDefined_define]
      simp [Expr.binder?, eq_comm]
      rfl
    have hpinned : ∀ l, (openValue x c).environment.isDefined l =
        (decide ((Expr.binding span x value body).binder?.map Locator.variable = some l) ||
          c.environment.isDefined l) := by
      intro l
      refine (isDefined_openParameter x c l).trans ?_
      simp [Expr.binder?, eq_comm]
    rw [erase, hvalue hinferv, hbody hinfer, Expr.desugar, targets_child (i := 0) rfl hpinned,
      targets_child (i := 1) rfl hscope]

/-- Where no name is local at first, positions alone decide which names are. -/
theorem targets_eq_lexically {env : Environment} {e : Expr} {defined : Locator → Bool}
    (hlocals : ∀ x, env.isDefined (.variable x) = false)
    (hdefined : ∀ x, env.isDefined (.declaration home x) = defined (.declaration home x)) :
    targets home env e = e.lexically home defined := by
  funext p path
  refine path.target_congr ?_ (hdefined path.name)
  rw [hlocals, Bool.or_false]
  exact Bool.eq_iff_iff.mpr (Expr.inScope_iff.trans (decide_eq_true_iff).symm)

/-! ## Groups -/

/-- **What a group of a module that succeeds makes of its names**: besides what was defined before, the group's own
    declarations are. -/
theorem checkGroup_resolves {done : List TypedDecl} (hc : Calm c)
    (hlocals : ∀ x, c.environment.isDefined (.variable x) = false)
    (h : checkGroup home decls c = (.ok done, d)) :
    (∀ l, d.environment.isDefined l = (decide (l ∈ decls.map (declared home)) || c.environment.isDefined l)) ∧
      ∀ x ∈ done, ∃ decl ∈ decls, x.symbol = declared home decl ∧
        x.body.erase = decl.body.desugar (decl.body.lexically home d.environment.isDefined) := by
  obtain ⟨entries, hentries, hestablishes⟩ := checkGroup_ok hc h
  have hdefined : ∀ l, d.environment.isDefined l =
      (decide (l ∈ decls.map (declared home)) || c.environment.isDefined l) := by
    intro l
    rw [hestablishes.environment, isDefined_redefine, hentries]
  refine ⟨hdefined, fun x hx => ?_⟩
  obtain ⟨decl, hdecl, hsymbol, body, pinned, ⟨before, _, -, henv, hinfer, -⟩, hhand⟩ := hestablishes.bodies x hx
  refine ⟨decl, hdecl, hsymbol, ?_⟩
  rw [(handOff_ok hhand).1, erase_mapTypes, infer_resolves hinfer, henv]
  refine congrArg decl.body.desugar (targets_eq_lexically (fun y => ?_) fun y => isDefined_pinAll ..)
  rw [isDefined_pinAll, hdefined, hlocals, Bool.or_false, decide_eq_false]
  simp [declared]

/-- **What groups in a row make of their names**: those of a group are resolved with what it and the groups before
    it declare. -/
theorem checkGroups_resolves {groups : List (List Nat)} {typed : List (Nat × TypedDecl)}
    (hc : Calm c) (hlocals : ∀ x, c.environment.isDefined (.variable x) = false)
    (h : checkGroups home decls groups c = (.ok typed, d)) :
    ∀ x ∈ typed, ∃ earlier group later, groups = earlier ++ group :: later ∧
      ∃ decl ∈ groupDecls decls group, x.2.symbol = declared home decl ∧
        x.2.body.erase = decl.body.desugar (decl.body.lexically home fun l =>
          decide (l ∈ (earlier ++ [group]).flatMap (groupSymbols home decls)) || c.environment.isDefined l) := by
  induction groups generalizing c typed with
  | nil =>
    cases h
    simp
  | cons group rest ih =>
    obtain ⟨done, between, more, hdone, hmore, rfl⟩ := checkGroups_cons_ok.mp h
    have hbetween := hc.checkGroup home (groupDecls decls group)
    rw [hdone] at hbetween
    obtain ⟨hdefined, hfirst⟩ := checkGroup_resolves hc hlocals hdone
    have hlocals' : ∀ x, between.environment.isDefined (.variable x) = false := by
      intro x
      rw [hdefined, hlocals, Bool.or_false, decide_eq_false]
      simp [declared]
    intro x hx
    rcases mem_append.mp hx with hx | hx
    · obtain ⟨decl, hdecl, hsymbol, herase⟩ := hfirst x.2 (of_mem_zip hx).2
      refine ⟨[], group, rest, rfl, decl, hdecl, hsymbol, herase.trans ?_⟩
      have hsame : between.environment.isDefined = fun l =>
          decide (l ∈ ([] ++ [group]).flatMap (groupSymbols home decls)) || c.environment.isDefined l := by
        funext l
        rw [hdefined, nil_append, flatMap_singleton]
        rfl
      rw [hsame]
    · obtain ⟨earlier, group', later, rfl, decl, hdecl, hsymbol, herase⟩ := ih hbetween hlocals' hmore x hx
      refine ⟨group :: earlier, group', later, rfl, decl, hdecl, hsymbol, herase.trans ?_⟩
      have hsame : (fun l => decide (l ∈ (earlier ++ [group']).flatMap (groupSymbols home decls)) ||
          between.environment.isDefined l) = fun l =>
          decide (l ∈ (group :: earlier ++ [group']).flatMap (groupSymbols home decls)) ||
            c.environment.isDefined l := by
        funext l
        rw [hdefined, cons_append, flatMap_cons, decide_eq_decide.mpr mem_append, Bool.decide_or,
          ← Bool.or_assoc, Bool.or_comm (decide (l ∈ List.flatMap _ _))]
        rfl
      rw [hsame]

/-! ## Modules -/

/-- **A free use of a declaration's name is a dependency**, since no other declaration has the name. -/
theorem needs_of_use (hnames : (decls.map fun d => d.name.name).Nodup) {k m : Nat}
    {decl other : Decl} (hdecl : decls[k]? = some decl) (hother : decls[m]? = some other)
    (huse : other.name.name ∈ decl.body.freeNames) : Dependency.Action.Needs (dependencyActions decls) k m := by
  -- the other declaration is the first of its name, so the graph has it
  have hfirst : (decls.findIdx? fun x => x.name.name = other.name.name) = some m := by
    obtain ⟨hm, hget⟩ := List.getElem?_eq_some_iff.mp hother
    refine findIdx?_eq_some_iff_getElem.mpr ⟨hm, by simp [hget], fun j hj => ?_⟩
    have hne : decls[j].name.name ≠ other.name.name := by
      intro heq
      have hplace : j < (decls.map fun d => d.name.name).length := by
        rw [length_map]
        exact Nat.lt_trans hj hm
      have hsame : j = m := by
        refine (getElem?_inj hplace hnames).mp ?_
        rw [getElem?_map, getElem?_map, hother, getElem?_eq_getElem (Nat.lt_trans hj hm),
          Option.map_some, Option.map_some, heq]
      omega
    simpa using hne
  refine mem_flatMap.mpr ⟨(decl, k), mem_zipIdx_iff_getElem?.mpr hdecl, mem_cons_of_mem _ ?_⟩
  exact mem_filterMap.mpr ⟨other.name.name, huse, by rw [hfirst, Option.map_some]⟩

/-- **A free use of a declaration's name points into the group or an earlier one.** -/
theorem use_in_group (hnames : (decls.map fun d => d.name.name).Nodup)
    {earlier later : List (List Nat)} {group : List Nat}
    (hgroups : (dependencies decls).groups = earlier ++ group :: later) {k m : Nat} {decl other : Decl}
    (hk : k ∈ group) (hdecl : decls[k]? = some decl) (hother : decls[m]? = some other) {p : List Nat}
    (huse : decl.body.UsesFreely p other.name.name) : m ∈ group ∨ m ∈ earlier.flatten := by
  have harranges := dependencies_arrange decls
  rw [hgroups] at harranges
  have hneeds := needs_of_use hnames hdecl hother (Expr.mem_freeNames.mpr ⟨p, huse⟩)
  by_cases heq : k = m
  · exact Or.inl (heq ▸ hk)
  · have hmem := (harranges.covers m).mpr (dependencies_eq_build decls ▸ hneeds.mem_keys.2)
    rw [flatten_append, mem_append, flatten_cons, mem_append] at hmem
    rcases hmem with hmem | hmem | hmem
    · exact Or.inr hmem
    · exact Or.inl hmem
    · obtain ⟨group', hgroup', hm⟩ := mem_flatten.mp hmem
      have hordered := (pairwise_append.mp harranges.ordered).2.1
      exact absurd ⟨heq, hneeds⟩ ((pairwise_cons.mp hordered).1 group' hgroup' k hk m hm)

/-- **A name that is used freely is declared by now or not at all.** -/
theorem declared_so_far_iff (hnames : (decls.map fun d => d.name.name).Nodup) (home : String)
    {earlier later : List (List Nat)} {group : List Nat}
    (hgroups : (dependencies decls).groups = earlier ++ group :: later) {k : Nat} {decl : Decl}
    (hk : k ∈ group) (hdecl : decls[k]? = some decl) {p : List Nat} {x : String} (huse : decl.body.UsesFreely p x) :
    declaration home x ∈ (earlier ++ [group]).flatMap (groupSymbols home decls) ↔
      declaration home x ∈ decls.map (declared home) := by
  constructor
  · intro hmem
    obtain ⟨group', -, hmem⟩ := mem_flatMap.mp hmem
    obtain ⟨other, hother, heq⟩ := mem_map.mp hmem
    exact mem_map.mpr ⟨other, mem_groupDecls hother, heq⟩
  · intro hmem
    obtain ⟨other, hother, heq⟩ := mem_map.mp hmem
    obtain ⟨-, rfl⟩ := declaration.inj heq
    obtain ⟨m, hm⟩ := mem_iff_getElem?.mp hother
    have hgroup : ∃ group' ∈ earlier ++ [group], m ∈ group' := by
      rcases use_in_group hnames hgroups hk hdecl hm huse with hin | hin
      · exact ⟨group, mem_append_right _ (mem_singleton.mpr rfl), hin⟩
      · obtain ⟨group', hgroup', hin⟩ := mem_flatten.mp hin
        exact ⟨group', mem_append_left _ hgroup', hin⟩
    obtain ⟨group', hgroup', hin⟩ := hgroup
    exact mem_flatMap.mpr ⟨group', hgroup', mem_map.mpr ⟨other, mem_filterMap.mpr ⟨m, hin, hm⟩, heq⟩⟩

/-- **The names of a module refer to what they would if all of it was declared at once.** -/
theorem checkProgram_resolves {p : Program} {result : TypedProgram} (hc : Calm c)
    (hlocals : ∀ x, c.environment.isDefined (.variable x) = false)
    (h : checkProgram p c = (.ok result, d)) :
    ∀ x ∈ result.decls, ∃ decl ∈ p.decls, x.symbol = declared p.home decl ∧
      x.body.erase = decl.body.desugar (decl.body.lexically p.home fun l =>
        decide (l ∈ p.decls.map (declared p.home)) || c.environment.isDefined l) := by
  have hnames : (p.decls.map fun d => d.name.name).Nodup := by
    by_contra hnot
    cases hduplicate : duplicate? [] p.decls with
    | none => exact hnot (duplicate?_eq_none_iff.mp hduplicate).1
    | some x =>
      simp only [checkProgram, run_bind, run_modify, hduplicate] at h
      cases h
  obtain ⟨typed, htyped, rfl⟩ := checkProgram_ok h
  have hload : (c.addModule p.home).environment = c.environment := ((Input.program p).load_state c).2.1
  intro x hx
  obtain ⟨i, -, hi⟩ := mem_filterMap.mp hx
  obtain ⟨earlier, group, later, hgroups, decl, hdecl, hsymbol, herase⟩ :=
    checkGroups_resolves (hc.load (.program p)) (hload.symm ▸ hlocals) htyped (i, x) (mem_of_lookup hi)
  rw [show ((Input.program p).load c).environment = c.environment from hload] at herase
  obtain ⟨k, hk, hplace⟩ := mem_filterMap.mp hdecl
  refine ⟨decl, mem_groupDecls hdecl, hsymbol, herase.trans (Expr.desugar_congr fun q span path hq => ?_)⟩
  by_cases hfree : path.home = none ∧ ¬decl.body.InScope q path.name
  · -- a declaration of a free name is in this group or an earlier one, so it is defined already
    refine path.target_congr rfl ?_
    have huse : decl.body.UsesFreely q path.name := by
      refine ⟨⟨span, ?_⟩, hfree.2⟩
      rw [hq, ← hfree.1]
    have hiff := declared_so_far_iff hnames p.home hgroups hk hplace huse
    rw [decide_eq_decide.mpr hiff]
  · -- a qualified name and a local one refer to the same symbol whatever is declared
    obtain ⟨qualifier, y⟩ := path
    cases qualifier with
    | some qualifier => rfl
    | none =>
      have hscope : decl.body.InScope q y := by
        by_contra hnot
        exact hfree ⟨rfl, hnot⟩
      simp [Expr.lexically, Path.target, decide_eq_true hscope]

/-- A new context has no local variables. -/
theorem new_locals (home : String) (tracing : Bool) (x : String) :
    (Context.new home tracing).environment.isDefined (.variable x) = false := by
  have hsymbols : ∀ e ∈ (Context.new "" false).environment.innermost.symbols,
      e.1 = Builtin.locator e.1.name := by decide +kernel
  have houter : (Context.new "" false).environment.outer = [] := by decide +kernel
  rw [(new_state home tracing).1, isDefined, scopes, houter, any_cons, any_nil,
    Bool.or_false, Option.isSome_eq_false_iff, Option.isNone_iff_eq_none]
  by_contra hsome
  obtain ⟨ts, hts⟩ := Option.ne_none_iff_exists'.mp hsome
  cases hsymbols _ (mem_of_lookup hts)

/-- **Names resolve as lexical scope and the dependencies of a module say.** Where no name is local at first, an
    expression that is typed is the expression as written, with operators applied as their symbols, and each
    unqualified name as a local variable exactly in the scope of such a name. Its free names are those that are used
    outside such scopes, each once and by first use. In a module whose names differ, a free use of the name of a
    declaration points into its group or an earlier one, so that a module that is typed has its names resolved as if
    all of it was declared. -/
theorem names_resolve_lexically :
    (∀ (c d : Context) (home : String) (e : Expr) (e' : TypedExpr),
      (∀ x, c.environment.isDefined (.variable x) = false) → infer home e c = (.ok e', d) →
      e'.erase = e.desugar (e.lexically home c.environment.isDefined)) ∧
    (∀ e : Expr, (∀ x, x ∈ e.freeNames ↔ ∃ p, e.UsesFreely p x) ∧ e.freeNames.Pairwise fun x y =>
      x ≠ y ∧ ∃ p, e.UsesFreely p x ∧ ∀ q, e.UsesFreely q y → List.Lex (· < ·) p q) ∧
    (∀ decls : List Decl, (decls.map fun d => d.name.name).Nodup → ∀ earlier group later,
      (dependencies decls).groups = earlier ++ group :: later → ∀ k ∈ group, ∀ m decl other,
      decls[k]? = some decl → decls[m]? = some other → ∀ p, decl.body.UsesFreely p other.name.name →
      m ∈ group ∨ m ∈ earlier.flatten) ∧
    ∀ (c d : Context) (p : Program) (result : TypedProgram), Reached c →
      (∀ x, c.environment.isDefined (.variable x) = false) → checkProgram p c = (.ok result, d) →
      ∀ x ∈ result.decls, ∃ decl ∈ p.decls, x.symbol = declared p.home decl ∧
        x.body.erase = decl.body.desugar (decl.body.lexically p.home fun l =>
          decide (l ∈ p.decls.map (declared p.home)) || c.environment.isDefined l) := by
  refine ⟨fun c d home e e' hlocals h => ?_, fun e => ⟨fun x => Expr.mem_freeNames, e.freeNames_in_order⟩,
    fun decls hnames earlier group later hgroups k hk m decl other hdecl hother p huse => ?_,
    fun c d p result hc hlocals h => checkProgram_resolves hc.calm hlocals h⟩
  · rw [infer_resolves h, targets_eq_lexically hlocals fun _ => rfl]
  · exact use_in_group hnames hgroups hk hdecl hother huse

/-- The expression `x -> let x = 1 in -x`; and the module `g = f 1`, `f = x -> let f = x in f`, whose second
    declaration is typed first and hides its own name. -/
theorem names_resolve_lexically_hidden :
    let c := Context.new "main" false
    let at0 : Span := ⟨0, 0, 1⟩
    let x : Ident := ⟨"x", at0⟩
    let f : Ident := ⟨"f", at0⟩
    let e : Expr :=
      .lambda at0 x (.binding at0 x (.literal at0 (.integer 1)) (.unary at0 .neg (.name at0 ⟨none, "x"⟩)))
    let p : Program := ⟨"main", [
      ⟨⟨"g", at0⟩, .apply at0 (.name at0 ⟨none, "f"⟩) (.literal at0 (.integer 1)), at0⟩,
      ⟨f, .lambda at0 x (.binding at0 f (.name at0 ⟨none, "x"⟩) (.name at0 ⟨none, "f"⟩)), at0⟩]⟩
    (∃ e' d, infer "main" e c = (.ok e', d) ∧ e'.erase = .lambda at0 (.variable "x")
      (.binding at0 (.variable "x") (.literal at0 (.integer 1))
        (.apply at0 (.reference at0 (Builtin.locator "unary-")) (.reference at0 (.variable "x"))))) ∧
    (dependencies p.decls).groups = [[1], [0]] ∧
    ∃ result d, checkProgram p c = (.ok result, d) ∧ result.decls.length = 2 ∧ ∀ y ∈ result.decls,
      y.body.erase = .apply at0 (.reference at0 (.declaration "main" "f")) (.literal at0 (.integer 1)) ∨
      y.body.erase = .lambda at0 (.variable "x") (.binding at0 (.variable "f") (.reference at0 (.variable "x"))
        (.reference at0 (.variable "f"))) := by
  intro c at0 x f e p
  have hreached : Reached c := .new "main" false
  refine ⟨?_, by decide +kernel, ?_⟩
  · have hok : (infer "main" e c).1.isOk = true := by decide +kernel
    cases hrun : infer "main" e c with
    | mk r d =>
        cases r with
        | error _ =>
            rw [hrun] at hok
            cases hok
        | ok e' =>
            refine ⟨e', d, rfl, ?_⟩
            rw [names_resolve_lexically.1 c d "main" e e' (new_locals "main" false) hrun]
            decide +kernel
  · have hok : ((checkProgram p c).1.toOption.map fun r => r.decls.length) = some 2 := by decide +kernel
    cases hrun : checkProgram p c with
    | mk r d =>
        rw [hrun] at hok
        cases r with
        | error _ => cases hok
        | ok result =>
            refine ⟨result, d, rfl, Option.some.inj hok, fun y hy => ?_⟩
            obtain ⟨decl, hdecl, -, herase⟩ :=
              names_resolve_lexically.2.2.2 c d p result hreached (new_locals "main" false) hrun y hy
            rw [herase]
            rcases List.mem_cons.mp hdecl with rfl | hdecl
            · exact Or.inl (by decide +kernel)
            · rw [List.mem_singleton.mp hdecl]
              exact Or.inr (by decide +kernel)

end Typing
end UnionTyping
