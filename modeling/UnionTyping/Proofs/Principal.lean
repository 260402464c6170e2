import UnionTyping.Proofs.Isolation
import UnionTyping.Proofs.Locals

/-!
# `Proofs.Principal` — typing agrees with the Damas–Milner system

On closed expressions made of literals, local names, applications, functions and local bindings, typing finds
a type in the declarative system (`infer_hasType`) and finds the most general one (`infer_principal`).

Both are proved for parts of expressions first, in terms of solutions. An arena and a solution of it turn the
local names into assumptions: a name may be assumed to have every type that it can become while the pinned
types stay what they are. That the assumptions claim at least these types (`Models`) is what soundness needs,
and that they claim at most these (`Covers`) is what completeness needs.

Generalization happens nowhere while typing: a local binding just ends with a variable that is not pinned any
more. It happens in the proofs, where a scheme is made of what the variable can become
(`Standing.generalize`) or can be seen to be attained by it (`Standing.specialize`).
-/

namespace UnionTyping

open List Arena Typing Ty

/-! ## Expressions without unions -/

/-- **The expressions of the Damas–Milner system** over the given names: there is nothing in them that is typed
    with the help of operators or joins types into unions. -/
def Expr.Core (names : List String) : Expr → Prop
  | .literal _ _ => True
  | .name _ p => p.home = none ∧ p.name ∈ names
  | .apply _ f a => f.Core names ∧ a.Core names
  | .lambda _ x body => body.Core (x.name :: names)
  | .binding _ x value body => value.Core (x.name :: names) ∧ body.Core (x.name :: names)
  | .binary _ _ _ _ => False
  | .unary _ _ _ => False
  | .conditional _ _ _ _ => False

instance Expr.decidableCore : (names : List String) → (e : Expr) → Decidable (e.Core names)
  | _, .literal _ _ => isTrue trivial
  | names, .name _ p => inferInstanceAs (Decidable (p.home = none ∧ p.name ∈ names))
  | names, .apply _ f a =>
      have := decidableCore names f
      have := decidableCore names a
      inferInstanceAs (Decidable (f.Core names ∧ a.Core names))
  | names, .lambda _ x body => decidableCore (x.name :: names) body
  | names, .binding _ x value body =>
      have := decidableCore (x.name :: names) value
      have := decidableCore (x.name :: names) body
      inferInstanceAs (Decidable (value.Core (x.name :: names) ∧ body.Core (x.name :: names)))
  | _, .binary _ _ _ _ => isFalse not_false
  | _, .unary _ _ _ => isFalse not_false
  | _, .conditional _ _ _ _ => isFalse not_false

variable {home : String} {L : Locals} {c : Context}

theorem Locals.exists_visible {x : String} (h : x ∈ L.map Local.name) : ∃ l, L.visible? x = some l := by
  obtain ⟨l, hl, rfl⟩ := mem_map.mp h
  exact Option.isSome_iff_exists.mp (find?_isSome.mpr ⟨l, hl, by simp⟩)

/-- A local name is looked up as a variable, whatever else there is of that name. -/
theorem Standing.resolve (hc : Standing L c) {x : String} {l : Local} (hx : L.visible? x = some l) :
    resolve c home ⟨none, x⟩ = .variable x := by
  simp [Typing.resolve, hc.locals.isDefined hx]

/-! ## Assumptions about local names -/

variable {a b : Arena} {σ τ : TyVar → Ty} {Γ : Assumptions} {t r : Ty}

/-- **The assumptions hold** of the local names: every type that a name can have is an instance. -/
def Models (Γ : Assumptions) (L : Locals) (a : Arena) (σ : TyVar → Ty) : Prop :=
  ∀ x l, L.visible? x = some l →
    ∃ s, Γ.lookup x = some s ∧ ∀ r, Attains L a σ l.type r → s.Instance r

/-- **The assumptions are covered** by the local names: a name can have every instance. -/
def Covers (Γ : Assumptions) (L : Locals) (a : Arena) (σ : TyVar → Ty) : Prop :=
  ∀ x s, Γ.lookup x = some s →
    ∃ l, L.visible? x = some l ∧ ∀ r, s.Instance r → Attains L a σ l.type r

theorem Attains.congr (h : Attains L a σ t r) (hpins : ∀ p ∈ L.pins, p.subst σ = p.subst τ) : Attains L a τ t r := by
  obtain ⟨υ, hυ, hp, ht⟩ := h
  exact ⟨υ, hυ, fun p hmem => (hp p hmem).trans (hpins p hmem), ht⟩

theorem Locals.pins_subset (l : Local) (L : Locals) {p : Ty} (h : p ∈ L.pins) : p ∈ pins (l :: L) := by
  obtain ⟨k, hk, hp⟩ := mem_pins.mp h
  exact mem_pins.mpr ⟨k, mem_cons_of_mem l hk, hp⟩

/-- What can be had inside and later, can be had outside and before. -/
theorem Attains.outer {l : Local} (h : Attains (l :: L) b σ t r) (hrefines : a.Refines b) : Attains L a σ t r := by
  obtain ⟨υ, hυ, hp, ht⟩ := h
  exact ⟨υ, hrefines.solution hυ, fun p hmem => hp p (Locals.pins_subset l L hmem), ht⟩

theorem Attains.earlier (h : Attains L b σ t r) (hrefines : a.Refines b) : Attains L a σ t r := by
  obtain ⟨υ, hυ, hp, ht⟩ := h
  exact ⟨υ, hrefines.solution hυ, hp, ht⟩

/-- A pinned type can only become what the solution makes of it. -/
theorem Attains.of_pinned (h : Attains L a σ t r) (ht : t ∈ L.pins) : r = t.subst σ := by
  obtain ⟨υ, -, hp, rfl⟩ := h
  exact hp t ht

namespace Models

theorem congr (h : Models Γ L a σ) (hpins : ∀ p ∈ L.pins, p.subst τ = p.subst σ) : Models Γ L a τ := by
  intro x l hl
  obtain ⟨s, hs, hinstance⟩ := h x l hl
  exact ⟨s, hs, fun r hr => hinstance r (hr.congr hpins)⟩

theorem later (h : Models Γ L a σ) (hrefines : a.Refines b) : Models Γ L b σ := by
  intro x l hl
  obtain ⟨s, hs, hinstance⟩ := h x l hl
  exact ⟨s, hs, fun r hr => hinstance r (hr.earlier hrefines)⟩

/-- One more name, inside. -/
theorem extend (h : Models Γ L a σ) (hrefines : a.Refines b) {l : Local} {s : Scheme}
    (hl : ∀ r, Attains (l :: L) b σ l.type r → s.Instance r) :
    Models (Γ.extend l.name s) (l :: L) b σ := by
  intro x k hk
  rw [Locals.visible?_cons] at hk
  rw [Assumptions.lookup_extend]
  by_cases hx : x = l.name
  · rw [if_pos hx] at hk
    obtain rfl := Option.some.inj hk
    exact ⟨s, if_pos hx, hl⟩
  · rw [if_neg hx] at hk
    obtain ⟨s', hs, hinstance⟩ := h x k hk
    exact ⟨s', by rw [if_neg hx, hs], fun r hr => hinstance r (hr.outer hrefines)⟩

/-- One more pinned name. -/
theorem parameter (h : Models Γ L a σ) (hrefines : a.Refines b) (x : String) (v : Ty) (hv : (v.subst σ).FirstOrder) :
    Models (Γ.extend x (.mono (v.subst σ) hv)) (⟨x, v, true⟩ :: L) b σ := by
  refine h.extend (l := ⟨x, v, true⟩) hrefines fun r hr => Scheme.instance_mono.mpr ?_
  exact hr.of_pinned (Locals.mem_pins.mpr ⟨_, mem_cons_self, rfl, rfl⟩)

end Models

/-! ## Soundness -/

/-- **Typing the expression is sound**: under every solution that is left, and all assumptions that hold of the
    local names, the expression has the type found. -/
def SoundAt (home : String) (e : Expr) : Prop :=
  ∀ (L : Locals) (c d : Context) (e' : TypedExpr), e.Core (L.map Local.name) → Standing L c →
    infer home e c = (.ok e', d) → Typed L c d e'.type ∧ ∀ σ Γ, d.store.arena.Solution σ →
      Models Γ L c.store.arena σ → HasType Γ e (e'.type.subst σ)

variable {span : Span} {x : Ident} {f arg value body : Expr}

theorem soundAt_literal (v : Literal) : SoundAt home (.literal span v) := by
  intro L c d e' _ hc h
  obtain ⟨rfl, rfl⟩ := literal_ok.mp h
  refine ⟨⟨hc, .refl _, ?_⟩, fun σ Γ _ _ => ?_⟩
  · cases v <;> exact in_simple
  · have hsubst : (literalType v).subst σ = literalType v := by cases v <;> rfl
    rw [TypedExpr.type, hsubst]
    exact .literal

theorem soundAt_name (p : Path) : SoundAt home (.name span p) := by
  obtain ⟨home', x⟩ := p
  rintro L c d e' ⟨rfl, hx⟩ hc h
  obtain ⟨l, hl⟩ := Locals.exists_visible hx
  obtain ⟨t, d', hlookup, htyped, hsound, -⟩ := hc.lookup hl
  rw [name_ok, hc.resolve hl, reference_ok, hlookup] at h
  obtain ⟨_, ⟨⟩, rfl⟩ := h
  refine ⟨htyped, fun σ Γ hσ hΓ => ?_⟩
  obtain ⟨s, hs, hinstance⟩ := hΓ x l hl
  exact .name hs (hinstance _ (hsound σ hσ))

theorem soundAt_apply (hf : SoundAt home f) (harg : SoundAt home arg) : SoundAt home (.apply span f arg) := by
  rintro L c d e' ⟨hcore, hcore'⟩ hc h
  obtain ⟨f', c₁, a', c₂, hf', ha', happlied⟩ := apply_ok.mp h
  obtain ⟨ht, happly, rfl⟩ := applied_ok.mp happlied
  obtain ⟨hf₁, hsound₁⟩ := hf L c c₁ f' hcore hc hf'
  obtain ⟨ha₂, hsound₂⟩ := harg L c₁ c₂ a' hcore' hf₁.standing ha'
  rcases ha₂.standing.apply (ha₂.refines.in hf₁.type) ha₂.type with
    ⟨t, d', hrun, hd, hfunc, -⟩ | ⟨hnone, -⟩
  · rw [hrun] at happly
    cases happly
    refine ⟨(hf₁.trans ha₂).trans hd, fun σ Γ hσ hΓ => ?_⟩
    -- a solution of the last arena solves the earlier ones, so both parts are typed under it
    have hσ₂ := hd.refines.solution hσ
    have hfun := hsound₁ σ Γ (ha₂.refines.solution hσ₂) hΓ
    rw [hfunc σ hσ] at hfun
    exact hfun.apply (hsound₂ σ Γ hσ₂ (hΓ.later hf₁.refines))
  · exact absurd happly (hnone _ _)

/-- The type of a function, outside the scope of its parameter. -/
theorem Typed.lambda (hc : Standing L c) {inner : Context}
    (h : Typed (.parameter x c :: L) (openParameter x c).2 inner t)
    (henv : (closeParameter (openParameter x c).1 inner).environment = c.environment) :
    Typed L c (closeParameter (openParameter x c).1 inner)
      (.func ((closeParameter (openParameter x c).1 inner).expose (openParameter x c).1) t) := by
  have harena := arena_closeParameter (openParameter x c).1 inner
  refine Typed.outer hc ⟨h.standing, h.refines, in_func.mpr ⟨?_, h.type⟩⟩ c.store.arena.refines_fresh henv harena
  rw [Context.expose, harena]
  exact h.standing.regular.closed.expose h.standing.parameter_in

theorem soundAt_lambda (hbody : SoundAt home body) : SoundAt home (.lambda span x body) := by
  intro L c d e' hcore hc h
  have henv := infer_environment h
  obtain ⟨body', inner, hinner, rfl, rfl⟩ := lambda_ok.mp h
  obtain ⟨htyped, hsound⟩ := hbody (.parameter x c :: L) _ inner body' hcore (hc.parameter x) hinner
  refine ⟨htyped.lambda hc henv, fun σ Γ hσ hΓ => ?_⟩
  rw [arena_closeParameter] at hσ
  have hvar := htyped.standing.parameter_in
  have hexpose : ((closeParameter (openParameter x c).1 inner).expose (openParameter x c).1).subst σ =
      (openParameter x c).1.subst σ := by
    rw [Context.expose, arena_closeParameter, hσ.expose htyped.standing.regular hvar]
  have hmono : ((openParameter x c).1.subst σ).FirstOrder :=
    (firstOrder_of_in hvar).subst fun v _ => hσ.plain v
  rw [TypedExpr.type, subst, hexpose]
  exact .lambda hmono (hsound σ _ hσ (hΓ.parameter c.store.arena.refines_fresh _ _ hmono))

theorem soundAt_binding (hvalue : SoundAt home value) (hbody : SoundAt home body) :
    SoundAt home (.binding span x value body) := by
  rintro L c d e' ⟨hcore, hcore'⟩ hc h
  have henv := infer_environment h
  obtain ⟨t, value', bound, body', inner, hbound, hinner, rfl, rfl⟩ := binding_ok.mp h
  obtain ⟨inner', d', hvalue', hexpect, hbinds, -⟩ := of_boundValue_ok (infer_restores home value) hbound
  obtain ⟨htyped, hsound⟩ := hvalue (.parameter x c :: L) (openValue x c) inner' value' hcore (hc.value x) hvalue'
  obtain ⟨hstanding, hrefines, hsolution⟩ := hc.bound htyped hexpect hbinds
  obtain ⟨htyped', hsound'⟩ := hbody (.bound x c :: L) bound inner body' hcore' hstanding hinner
  refine ⟨htyped'.outer hc hrefines henv rfl, fun σ Γ hσ hΓ => ?_⟩
  -- the type of the name is generalized as the solution left behind the body has it
  obtain ⟨⟨generic, u, hu⟩, τ, hτ, hpins, rfl, havoid, hinstance⟩ := hstanding.generalize
    (hstanding.types _ mem_cons_self) (htyped'.refines.solution hσ)
    (Γ.flatMap fun e => e.2.body.vars)
  have hpins : ∀ p ∈ L.pins, p.subst τ = p.subst σ := fun p hp => hpins p (Locals.pins_subset _ _ hp)
  -- it is not `σ` that types the value but `τ`, which makes the variables to generalize new ones
  obtain ⟨hτ, heq⟩ := (hsolution τ).mp hτ
  refine .binding hu ?_ (fun v hv hfree => ?_) (hsound' σ _ hσ (hΓ.extend hrefines hinstance))
  · have hmodels := (hΓ.congr hpins).parameter c.store.arena.refines_fresh x.name _ hu
    have hvalue := hsound τ _ hτ hmodels
    rw [← heq] at hvalue
    exact hvalue
  · obtain ⟨entry, hentry, hmem, -⟩ := hfree
    exact havoid v hv (mem_flatMap.mpr ⟨entry, hentry, hmem⟩)

/-- **Typing is sound.** -/
theorem sound (home : String) (e : Expr) : SoundAt home e := by
  induction e with
  | literal span v => exact soundAt_literal v
  | name span p => exact soundAt_name p
  | apply span f a hf ha => exact soundAt_apply hf ha
  | lambda span x body hbody => exact soundAt_lambda hbody
  | binding span x value body hvalue hbody => exact soundAt_binding hvalue hbody
  | binary span op l r => exact fun _ _ _ _ hcore => hcore.elim
  | unary span op x => exact fun _ _ _ _ hcore => hcore.elim
  | conditional span c a b => exact fun _ _ _ _ hcore => hcore.elim

/-! ## Completeness -/

/-- **Solutions go along**: each one that has the pinned types in common with `σ` goes on to the later arena,
    where it has the pinned types in common with `τ`. -/
def Follows (L M : Locals) (a b : Arena) (σ τ : TyVar → Ty) : Prop :=
  ∀ υ, a.Solution υ → (∀ p ∈ L.pins, p.subst υ = p.subst σ) →
    ∃ υ', a.Continues b υ υ' ∧ ∀ p ∈ M.pins, p.subst υ' = p.subst τ

theorem Attains.follow {M : Locals} (h : Attains L a σ t r) (ht : t.In a.firstOrder)
    (hstep : Follows L M a b σ τ) : Attains M b τ t r := by
  obtain ⟨υ, hυ, hp, rfl⟩ := h
  obtain ⟨υ', hυ', hp'⟩ := hstep υ hυ hp
  exact ⟨υ', hυ'.solution, hp', hυ'.subst ht⟩

namespace Covers

theorem congr (h : Covers Γ L a σ) (hpins : ∀ p ∈ L.pins, p.subst τ = p.subst σ) : Covers Γ L a τ := by
  intro x s hs
  obtain ⟨l, hl, hattains⟩ := h x s hs
  exact ⟨l, hl, fun r hr => (hattains r hr).congr fun p hp => (hpins p hp).symm⟩

theorem follow (h : Covers Γ L c.store.arena σ) (hc : Standing L c)
    (hstep : Follows L L c.store.arena b σ τ) : Covers Γ L b τ := by
  intro x s hs
  obtain ⟨l, hl, hattains⟩ := h x s hs
  exact ⟨l, hl, fun r hr => (hattains r hr).follow (hc.types l (Locals.mem_of_visible hl)) hstep⟩

/-- One more name, inside. -/
theorem extend (h : Covers Γ L c.store.arena σ) (hc : Standing L c) {l : Local} {s : Scheme}
    (hstep : Follows L (l :: L) c.store.arena b σ τ)
    (hl : ∀ r, s.Instance r → Attains (l :: L) b τ l.type r) :
    Covers (Γ.extend l.name s) (l :: L) b τ := by
  intro x s' hs
  rw [Assumptions.lookup_extend] at hs
  rw [Locals.visible?_cons]
  by_cases hx : x = l.name
  · rw [if_pos hx] at hs
    obtain rfl := Option.some.inj hs
    exact ⟨l, if_pos hx, hl⟩
  · rw [if_neg hx] at hs
    obtain ⟨k, hk, hattains⟩ := h x s' hs
    refine ⟨k, by rw [if_neg hx, hk], fun r hr => ?_⟩
    exact (hattains r hr).follow (hc.types k (Locals.mem_of_visible hk)) hstep

/-- One more pinned name. -/
theorem parameter (h : Covers Γ L c.store.arena σ) (hc : Standing L c) (ht : t.FirstOrder)
    (hτ : c.store.arena.Continues (openParameter x c).2.store.arena σ τ)
    (hx : (openParameter x c).1.subst τ = t) :
    Covers (Γ.extend x.name (.mono t ht)) (.parameter x c :: L) (openParameter x c).2.store.arena τ := by
  refine h.extend hc (l := .parameter x c) (fun υ hυ hpins => ?_) fun r hr => ?_
  · obtain ⟨υ', hυ', hx'⟩ := hc.assign x hυ ht
    refine ⟨υ', hυ', forall_mem_cons.mpr ⟨hx'.trans hx.symm, fun p hp => ?_⟩⟩
    rw [hυ'.subst (hc.pin_in hp), hτ.subst (hc.pin_in hp), hpins p hp]
  · rw [Scheme.instance_mono.mp hr]
    exact ⟨τ, hτ.solution, fun _ _ => rfl, hx⟩

/-- Renaming generic variables does not matter. -/
theorem rename (h : Covers Γ L a σ) {π : Equiv.Perm TyVar} (hπ : ∀ v, Γ.Free v → π v = v) :
    Covers (Γ.rename π) L a σ := by
  intro x s' hs'
  rw [Assumptions.lookup_rename] at hs'
  obtain ⟨s, hs, rfl⟩ := Option.map_eq_some_iff.mp hs'
  obtain ⟨l, hl, hattains⟩ := h x s hs
  refine ⟨l, hl, fun r hr => hattains r (hr.of_rename fun v hv => hπ v ?_)⟩
  exact ⟨(x, s), mem_of_lookup hs, hv⟩

end Covers

/-- **A type is reached**: every solution that covers the assumptions goes on to the later context and makes
    `t` that type. -/
def Reaches (Γ : Assumptions) (L : Locals) (c d : Context) (t r : Ty) : Prop :=
  ∀ σ, c.store.arena.Solution σ → Covers Γ L c.store.arena σ →
    ∃ τ, c.store.arena.Continues d.store.arena σ τ ∧ t.subst τ = r

theorem Reaches.follows {d : Context} {M : Locals} (h : Reaches Γ L c d t r) (hc : Standing L c)
    (hΓ : Covers Γ L c.store.arena σ) (hτ : c.store.arena.Continues d.store.arena σ τ) (hM : M.pins = L.pins) :
    Follows L M c.store.arena d.store.arena σ τ := by
  intro υ hυ hpins
  obtain ⟨υ', hυ', -⟩ := h υ hυ (hΓ.congr hpins)
  refine ⟨υ', hυ', fun p hp => ?_⟩
  rw [hM] at hp
  rw [hυ'.subst (hc.pin_in hp), hτ.subst (hc.pin_in hp), hpins p hp]

/-- **Typing the expression is complete**: whatever type it has under assumptions that are covered by the local
    names, typing succeeds, and the solution goes on to one that makes the type found that type. -/
def CompleteAt (home : String) (e : Expr) : Prop :=
  ∀ (Γ : Assumptions) (r : Ty) (L : Locals) (c : Context) (σ : TyVar → Ty), HasType Γ e r → Standing L c →
    c.store.arena.Solution σ → Covers Γ L c.store.arena σ →
    ∃ e' d, infer home e c = (.ok e', d) ∧ Typed L c d e'.type ∧
      ∃ τ, c.store.arena.Continues d.store.arena σ τ ∧ e'.type.subst τ = r

/-- Since typing is a function of the context, the type is the same for all solutions. -/
theorem CompleteAt.reaches {d : Context} {e : Expr} (h : CompleteAt home e) (hr : HasType Γ e r) (hc : Standing L c)
    {e' : TypedExpr} (hrun : infer home e c = (.ok e', d)) : Reaches Γ L c d e'.type r := by
  intro σ hσ hΓ
  obtain ⟨_, _, hrun', -, hτ⟩ := h Γ r L c σ hr hc hσ hΓ
  rw [hrun] at hrun'
  cases hrun'
  exact hτ

theorem completeAt_literal (v : Literal) : CompleteAt home (.literal span v) := by
  rintro Γ _ L c σ ⟨⟩ hc hσ -
  refine ⟨_, c, literal_ok.mpr ⟨rfl, rfl⟩, ⟨hc, .refl _, ?_⟩, σ, ⟨hσ, fun _ _ => rfl⟩, ?_⟩
  · cases v <;> exact in_simple
  · cases v <;> rfl

theorem completeAt_name (p : Path) : CompleteAt home (.name span p) := by
  intro Γ r L c σ h hc hσ hΓ
  cases h with
  | @name _ _ x s _ hs hinstance =>
    obtain ⟨l, hl, hattains⟩ := hΓ x s hs
    obtain ⟨t, d, hlookup, htyped, -, hcomplete⟩ := hc.lookup hl
    refine ⟨.reference span t ⟨.variable x, t⟩, d, ?_, htyped, hcomplete σ r hσ (hattains r hinstance)⟩
    rw [name_ok, hc.resolve hl]
    exact reference_ok.mpr ⟨t, hlookup, rfl⟩

theorem completeAt_apply (hf : CompleteAt home f) (harg : CompleteAt home arg) :
    CompleteAt home (.apply span f arg) := by
  intro Γ r L c σ h hc hσ hΓ
  cases h with
  | @apply _ _ _ _ u _ hfun hx =>
    obtain ⟨f', c₁, hf', hf₁, τ₁, hτ₁, hfunc⟩ := hf Γ _ L c σ hfun hc hσ hΓ
    have hΓ₁ := hΓ.follow hc ((hf.reaches hfun hc hf').follows hc hΓ hτ₁ rfl)
    obtain ⟨a', c₂, ha', ha₂, τ₂, hτ₂, hargument⟩ := harg Γ _ L c₁ τ₁ hx hf₁.standing hτ₁.solution hΓ₁
    have hfunc : f'.type.subst τ₂ = .func (a'.type.subst τ₂) r := by
      rw [hτ₂.subst hf₁.type, hfunc, hargument]
    rcases ha₂.standing.apply (ha₂.refines.in hf₁.type) ha₂.type with
      ⟨t, d, happly, hd, -, hcomplete⟩ | ⟨-, hnone⟩
    · obtain ⟨τ₃, hτ₃, ht⟩ := hcomplete τ₂ r hτ₂.solution hfunc
      have hgrows := (hf₁.trans ha₂).refines.grows
      refine ⟨.apply span t f' a', d, ?_, (hf₁.trans ha₂).trans hd, τ₃,
        (hτ₁.trans hτ₂ hf₁.refines.grows).trans hτ₃ hgrows, ht⟩
      exact apply_ok.mpr ⟨f', c₁, a', c₂, hf', ha', applied_ok.mpr ⟨t, happly, rfl⟩⟩
    · exact absurd hfunc (hnone τ₂ r hτ₂.solution)

theorem completeAt_lambda (hbody : CompleteAt home body) : CompleteAt home (.lambda span x body) := by
  intro Γ r L c σ h hc hσ hΓ
  cases h with
  | @lambda _ _ _ _ u r hu hr =>
    obtain ⟨τ₁, hτ₁, hx⟩ := hc.assign x hσ hu
    obtain ⟨body', inner, hinner, htyped, τ₂, hτ₂, hresult⟩ := hbody _ r (.parameter x c :: L) _ τ₁ hr
      (hc.parameter x) hτ₁.solution (hΓ.parameter hc hu hτ₁ hx)
    have hrun : infer home (.lambda span x body) c = (.ok _, _) :=
      lambda_ok.mpr ⟨body', inner, hinner, rfl, rfl⟩
    have harena := arena_closeParameter (openParameter x c).1 inner
    refine ⟨_, _, hrun, htyped.lambda hc (infer_environment hrun), τ₂, ?_, ?_⟩
    · rw [harena]
      exact hτ₁.trans hτ₂ c.store.arena.refines_fresh.grows
    · have hx₂ : (openParameter x c).1.subst τ₂ = u := by
        rw [hτ₂.subst (hc.parameter x).parameter_in, hx]
      rw [TypedExpr.type, subst, Context.expose, harena,
        hτ₂.solution.expose htyped.standing.regular htyped.standing.parameter_in, hx₂, hresult]

/-- The value of a local binding can be of any type that the name can be assumed to have in it, with variables
    renamed that are not free in the assumptions. -/
theorem complete_value (hvalue : CompleteAt home value) {ht : t.FirstOrder}
    (h : HasType (Γ.extend x.name (.mono t ht)) value t) {π : Equiv.Perm TyVar}
    (hπ : ∀ v, Γ.Free v → π v = v) (hc : Standing L c) (hσ : c.store.arena.Solution σ)
    (hΓ : Covers Γ L c.store.arena σ) :
    ∃ t' value' bound, boundValue x (infer home value) c.enter = (.ok (t', value'), bound) ∧
      Standing (.bound x c :: L) bound ∧ c.store.arena.Refines bound.store.arena ∧
      Reaches Γ L c bound (openParameter x c).1 (t.rename π) := by
  have hrenamed := h.rename π
  rw [Assumptions.extend_rename] at hrenamed
  have hcovers : ∀ τ, c.store.arena.Solution τ → Covers Γ L c.store.arena τ →
      ∃ υ, c.store.arena.Continues (openValue x c).store.arena τ υ ∧ (openParameter x c).1.subst υ = t.rename π ∧
        Covers ((Γ.rename π).extend x.name (.mono (t.rename π) (ht.rename π))) (.parameter x c :: L)
          (openValue x c).store.arena υ := by
    intro τ hτ hΓ
    obtain ⟨υ, hυ, hx⟩ := hc.assign x hτ (ht.rename π)
    exact ⟨υ, hυ, hx, (hΓ.rename hπ).parameter hc (ht.rename π) hυ hx⟩
  obtain ⟨τ, hτ, -, hΓ'⟩ := hcovers σ hσ hΓ
  obtain ⟨value', inner, hrun, htyped, -⟩ := hvalue _ _ _ _ τ hrenamed (hc.value x) hτ.solution hΓ'
  -- name and value are of the same type, so they can be unified
  have hreaches : ∀ τ, c.store.arena.Solution τ → Covers Γ L c.store.arena τ →
      ∃ υ, c.store.arena.Continues inner.store.arena τ υ ∧
        (openParameter x c).1.subst υ = t.rename π ∧ value'.type.subst υ = t.rename π := by
    intro τ hτ hΓ
    obtain ⟨υ, hυ, hx, hΓ'⟩ := hcovers τ hτ hΓ
    obtain ⟨ω, hω, hresult⟩ := hvalue.reaches hrenamed (hc.value x) hrun υ hυ.solution hΓ'
    refine ⟨ω, hυ.trans hω c.store.arena.refines_fresh.grows, ?_, hresult⟩
    rw [hω.subst (hc.value x).parameter_in, hx]
  obtain ⟨υ, hυ, hx, hresult⟩ := hreaches σ hσ hΓ
  rcases htyped.standing.expect htyped.standing.parameter_in htyped.type with
    ⟨d, hexpect, hd, -⟩ | ⟨-, hnone⟩
  · have hsome : d.decompose (openParameter x c).1 ≠ [] := by
      rw [Context.decompose, decompose_firstOrder hd.regular hd.parameter_in]
      exact cons_ne_nil _ _
    obtain ⟨t', bound, hbound, hbinds⟩ := boundValue_ok (infer_restores home value) hrun hexpect hsome
    obtain ⟨hstanding, hrefines, hsolution⟩ := hc.bound htyped hexpect hbinds
    refine ⟨t', value', bound, hbound, hstanding, hrefines, fun τ hτ hΓ => ?_⟩
    obtain ⟨υ, hυ, hx, hresult⟩ := hreaches τ hτ hΓ
    exact ⟨υ, ⟨(hsolution υ).mpr ⟨hυ.solution, hx.trans hresult.symm⟩, hυ.agrees⟩, hx⟩
  · exact absurd (hx.trans hresult.symm) (hnone υ hυ.solution)

theorem completeAt_binding (hvalue : CompleteAt home value) (hbody : CompleteAt home body) :
    CompleteAt home (.binding span x value body) := by
  intro Γ r L c σ h hc hσ hΓ
  cases h with
  | @binding _ _ _ _ _ t _ generic ht hvalue' hfree hbody' =>
    -- the generic variables are renamed apart from all that stays the same
    obtain ⟨n, hn⟩ := TyVar.exists_id_bound (generic ++ (t.vars ++
      ((Γ.flatMap fun e => e.2.body.vars) ++ L.pins.flatMap fun p => (p.subst σ).vars)))
    obtain ⟨hgeneric, hn⟩ := forall_mem_append.mp hn
    obtain ⟨hvars, hn⟩ := forall_mem_append.mp hn
    obtain ⟨hassumed, hpins⟩ := forall_mem_append.mp hn
    have hπ : ∀ v, Γ.Free v → TyVar.apart hgeneric v = v := by
      intro v hv
      have hnotin : v ∉ generic := fun hmem => hfree v hmem hv
      obtain ⟨entry, hentry, hmem, -⟩ := hv
      exact TyVar.exchange_of_notMem hnotin (hassumed v (mem_flatMap.mpr ⟨entry, hentry, hmem⟩))
    obtain ⟨t', value', bound, hbound, hstanding, hrefines, hreaches⟩ :=
      complete_value hvalue hvalue' hπ hc hσ hΓ
    obtain ⟨τ, hτ, hx⟩ := hreaches σ hσ hΓ
    have hcovers : Covers (Γ.extend x.name ⟨generic, t, ht⟩) (.bound x c :: L) bound.store.arena τ := by
      refine hΓ.extend hc (l := .bound x c) (hreaches.follows hc hΓ hτ rfl) fun u hu => ?_
      refine hstanding.specialize (s := ⟨generic, t, ht⟩) (hstanding.types _ mem_cons_self)
        hτ.solution hgeneric hvars (fun v hv => hpins v ?_) hx hu
      obtain ⟨p, hp, hmem⟩ := mem_flatMap.mp hv
      exact mem_flatMap.mpr ⟨p, hp, hτ.subst (hc.pin_in hp) ▸ hmem⟩
    obtain ⟨body', inner, hinner, htyped, υ, hυ, hresult⟩ :=
      hbody _ r _ bound τ hbody' hstanding hτ.solution hcovers
    have hrun : infer home (.binding span x value body) c = (.ok _, _) :=
      binding_ok.mpr ⟨t', value', bound, body', inner, hbound, hinner, rfl, rfl⟩
    exact ⟨_, _, hrun, htyped.outer hc hrefines (infer_environment hrun) rfl, υ, hτ.trans hυ hrefines.grows, hresult⟩

/-- **Typing is complete.** -/
theorem complete (home : String) (e : Expr) : CompleteAt home e := by
  induction e with
  | literal span v => exact completeAt_literal v
  | name span p => exact completeAt_name p
  | apply span f a hf ha => exact completeAt_apply hf ha
  | lambda span x body hbody => exact completeAt_lambda hbody
  | binding span x value body hvalue hbody => exact completeAt_binding hvalue hbody
  | binary span op l r => exact fun _ _ _ _ _ h => nomatch h
  | unary span op x => exact fun _ _ _ _ _ h => nomatch h
  | conditional span c a b => exact fun _ _ _ _ _ h => nomatch h

/-! ## New contexts -/

/-- A context in which there are no variables in scope and none are bound. -/
theorem Standing.of_settled (hc : Settled c) (hunbound : ∀ id, c.store.arena.binding? id = none)
    (hsymbols : ∀ e ∈ c.environment.innermost.symbols, e.1 ≠ .variable e.1.name) : Standing [] c := by
  refine ⟨⟨c.environment.innermost, fun x => ?_, hc.pinned, ?_⟩, ⟨fun v t _ ht => ?_, hc.arena.acyclic, ?_⟩, by simp⟩
  · cases hget : c.environment.innermost.get? (.variable x) with
    | none => rfl
    | some ts => exact absurd rfl (hsymbols _ (mem_of_lookup hget))
  · rw [Environment.scopes, hc.outer]
    rfl
  · rw [hunbound] at ht
    cases ht
  · exact fun v hv => lt_size_of_name? hv

theorem Standing.new (module : String) (tracing : Bool) : Standing [] (.new module tracing) := by
  refine .of_settled (new_settled module tracing) (Context.binding?_new module tracing) ?_
  rw [(new_state module tracing).1]
  decide +kernel

/-- **Typing finds a type of the Damas–Milner system.** -/
theorem infer_hasType (home module : String) (tracing : Bool) {e : Expr} {e' : TypedExpr} {d : Context}
    (he : e.Core []) (h : infer home e (.new module tracing) = (.ok e', d)) :
    HasType [] e (d.expose e'.type) := by
  obtain ⟨htyped, hsound⟩ := sound home e [] _ d e' he (.new module tracing) h
  have hregular := htyped.standing.regular
  have hsolution := hregular.solution_extend Ty.firstOrder_var
  have htype := hsound _ [] hsolution fun x l hl => absurd hl (by simp [Locals.visible?])
  rw [subst_extend d.store.arena.firstOrder_firstOrder hregular _ htyped.type] at htype
  have hexposed := firstOrder_of_in (hregular.closed.expose htyped.type)
  rw [hexposed.subst_eq_self fun _ _ => rfl] at htype
  exact htype

/-- The expression `f -> let k = x -> f in k (k 1)`, in which `k` is polymorphic in its parameter and
    monomorphic in `f`. -/
def constantTwice : Expr :=
  let here : Span := ⟨0, 0, 0⟩
  let k : Expr := .name here ⟨none, "k"⟩
  .lambda here ⟨"f", here⟩ (.binding here ⟨"k", here⟩
    (.lambda here ⟨"x", here⟩ (.name here ⟨none, "f"⟩))
    (.apply here k (.apply here k (.literal here (.integer 1)))))

theorem constantTwice_hasType : constantTwice.Core [] ∧
    HasType [] constantTwice (.func (.var ⟨8, "t8"⟩) (.var ⟨8, "t8"⟩)) := by
  have hcore : constantTwice.Core [] := by decide
  have hfound : (infer "main" constantTwice (.new "main" false)).1.toOption.map
      (fun e => (infer "main" constantTwice (.new "main" false)).2.expose e.type) =
        some (.func (.var ⟨8, "t8"⟩) (.var ⟨8, "t8"⟩)) := by decide +kernel
  cases hrun : infer "main" constantTwice (.new "main" false) with
  | mk r d =>
      rw [hrun] at hfound
      cases r with
      | error _ => cases hfound
      | ok e =>
          have htype := infer_hasType "main" "main" false hcore hrun
          have hexpose : d.expose e.type = _ := Option.some.inj hfound
          rw [hexpose] at htype
          exact ⟨hcore, htype⟩

/-- **Typing finds the most general type of the Damas–Milner system**, and so it succeeds if there is any. -/
theorem infer_principal (home module : String) (tracing : Bool) {e : Expr} {t : Ty} (h : HasType [] e t) :
    ∃ e' d, infer home e (.new module tracing) = (.ok e', d) ∧
      ∃ σ, Plain σ ∧ t = (d.expose e'.type).subst σ := by
  have hc := Standing.new module tracing
  have hsolution := hc.regular.solution_extend Ty.firstOrder_var
  obtain ⟨e', d, hrun, htyped, τ, hτ, ht⟩ := complete home e [] t [] _ _ h hc hsolution nofun
  refine ⟨e', d, hrun, τ, hτ.solution.plain, ?_⟩
  rw [Context.expose, hτ.solution.expose htyped.standing.regular htyped.type, ht]

theorem constantTwice_principal : HasType [] constantTwice (.func .string .string) ∧
    ∃ e d, infer "main" constantTwice (.new "main" false) = (.ok e, d) ∧
      ∃ σ, Plain σ ∧ .func .string .string = (d.expose e.type).subst σ := by
  let v : TyVar := ⟨0, "a"⟩
  have hstring : Ty.string.FirstOrder := Ty.firstOrder_simple _
  have hk : (Ty.func (.var v) .string).FirstOrder :=
    Ty.firstOrder_func.mpr ⟨Ty.firstOrder_var v, hstring⟩
  have hinstance : ∀ n, (Scheme.mk [v] _ hk).Instance (.func (.simple n) .string) := by
    intro n
    refine ⟨fun w => if w = v then .simple n else .var w, fun w => ?_, fun w hw => if_neg ?_, ?_⟩
    · by_cases hw : w = v <;> simp [hw]
    · exact fun heq => hw (List.mem_singleton.mpr heq)
    · simp [Ty.subst, Ty.string]
  have h : HasType [] constantTwice (.func .string .string) := by
    have hfree : ∀ w ∈ [v], ¬(Assumptions.extend [] "f" (.mono .string hstring)).Free w := by
      rintro w - ⟨_, hmem, hw, -⟩
      rw [List.mem_singleton.mp hmem] at hw
      cases hw
    refine .lambda hstring (.binding hk ?_ hfree ?_)
    · exact .lambda (Ty.firstOrder_var v) (.name rfl (Scheme.instance_mono.mpr rfl))
    · exact .apply (.name rfl (hinstance "String")) (.apply (.name rfl (hinstance "Integer")) .literal)
  exact ⟨h, infer_principal "main" "main" false h⟩

end UnionTyping
