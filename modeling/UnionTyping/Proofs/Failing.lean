import UnionTyping.Proofs.Isolation
import UnionTyping.Proofs.Orderly

/-!
# `Proofs.Failing` — what the typing of an expression can fail with

An expression is typed by steps of the solver, and each failure of the solver is given the place of the expression at
hand. Two questions about failures go the same way through an expression, from each step to the next: which places
they point to, and whether the solver gave up. So both are asked at once: `Failing D S C E` says that failures of the
solver are of the kind `C` where the discipline `D` holds, and that `E` holds of such failures at the places of `S`.
Then `E` holds of all failures of an expression whose places are in `S` (`Failing.infer`), and of those of a group of
declarations but for the ones that were not given a place yet (`Failing.group`).
-/

namespace UnionTyping

open List InferenceError Context TypedExpr

/-! ## Places -/

variable {e : Diagnostic} {typed typed' : List TypedExpr} {c d : Context}

/-- The places in an expression: the ranges of its parts, and those of the names it introduces. -/
def Expr.places : Expr → List Span
  | .literal s _ => [s]
  | .name s _ => [s]
  | .apply s f a => s :: (f.places ++ a.places)
  | .binary s _ l r => s :: (l.places ++ r.places)
  | .unary s _ x => s :: x.places
  | .lambda s x b => s :: x.span :: b.places
  | .conditional s p a b => s :: (p.places ++ a.places ++ b.places)
  | .binding s x v b => s :: x.span :: (v.places ++ b.places)

namespace Typing

open Check

/-- The nodes of a typed expression have their ranges from the expression. -/
theorem infer_places {home : String} {e : Expr} {e' : TypedExpr} {S : Span → Prop} (he : ∀ s ∈ e.places, S s)
    (h : infer home e c = (.ok e', d)) : e'.AllNodes fun node => S node.span := by
  induction e generalizing c d e' with
  | literal span v =>
    obtain ⟨rfl, -⟩ := literal_ok.mp h
    exact allNodes_iff.mpr ⟨he _ mem_cons_self, fun _ hpart => absurd hpart not_mem_nil⟩
  | name span p =>
    obtain ⟨t, -, rfl⟩ := reference_ok.mp (name_ok.mp h)
    exact allNodes_iff.mpr ⟨he _ mem_cons_self, fun _ hpart => absurd hpart not_mem_nil⟩
  | apply span f a ihf iha =>
    simp only [Expr.places, forall_mem_cons, forall_mem_append] at he
    obtain ⟨f', c₁, a', c₂, hf', ha', h⟩ := apply_ok.mp h
    obtain ⟨t, -, rfl⟩ := applied_ok.mp h
    have hparts := And.intro (ihf he.2.1 hf') (iha he.2.2 ha')
    exact allNodes_iff.mpr ⟨he.1, by simpa [children] using hparts⟩
  | binary span op l r ihl ihr =>
    simp only [Expr.places, forall_mem_cons, forall_mem_append] at he
    obtain ⟨f, c₁, l', c₂, r', c₃, half, c₄, hf, hl', hr', hhalf, h⟩ := binary_ok.mp h
    obtain ⟨_, -, rfl⟩ := reference_ok.mp hf
    obtain ⟨_, -, rfl⟩ := applied_ok.mp hhalf
    obtain ⟨t, -, rfl⟩ := applied_ok.mp h
    simp only [allNodes_iff (e := .apply _ _ _ _), allNodes_iff (e := .reference _ _ _),
      children, forall_mem_cons, not_mem_nil, false_implies, implies_true, and_true]
    exact ⟨he.1, ⟨he.1, he.1, ihl he.2.1 hl'⟩, ihr he.2.2 hr'⟩
  | unary span op x ih =>
    simp only [Expr.places, forall_mem_cons] at he
    obtain ⟨f, c₁, x', c₂, hf, hx', h⟩ := unary_ok.mp h
    obtain ⟨_, -, rfl⟩ := reference_ok.mp hf
    obtain ⟨t, -, rfl⟩ := applied_ok.mp h
    simp only [allNodes_iff (e := .apply _ _ _ _), allNodes_iff (e := .reference _ _ _),
      children, forall_mem_cons, not_mem_nil, false_implies, implies_true, and_true]
    exact ⟨he.1, he.1, ih he.2 hx'⟩
  | lambda span x b ih =>
    simp only [Expr.places, forall_mem_cons] at he
    obtain ⟨b', inner, hb', -, rfl⟩ := lambda_ok.mp h
    have hpart := ih he.2.2 hb'
    exact allNodes_iff.mpr ⟨he.1, by simpa [children] using hpart⟩
  | conditional span p a b ihp iha ihb =>
    simp only [Expr.places, forall_mem_cons, forall_mem_append] at he
    obtain ⟨p', c₁, c₂, a', c₃, b', c₄, t, hp', -, ha', hb', -, rfl⟩ := conditional_ok.mp h
    have hparts := And.intro (ihp he.2.1.1 hp') (And.intro (iha he.2.1.2 ha') (ihb he.2.2 hb'))
    exact allNodes_iff.mpr ⟨he.1, by simpa [children] using hparts⟩
  | binding span x v b ihv ihb =>
    simp only [Expr.places, forall_mem_cons, forall_mem_append] at he
    obtain ⟨t, v', bound, b', inner, hbound, hb', -, rfl⟩ := binding_ok.mp h
    obtain ⟨_, _, hv', -, -⟩ := of_boundValue_ok (infer_restores home v) hbound
    have hparts := And.intro (ihv he.2.2.1 hv') (ihb he.2.2.2 hb')
    exact allNodes_iff.mpr ⟨he.1, by simpa [children] using hparts⟩

/-! ## Groups that fail -/

theorem asBody_error {step : Check TypedExpr} :
    asBody step typed c = (.error e, typed', d) ↔ step c = (.error e, d) ∧ typed' = typed := by
  unfold asBody
  cases step c with
  | mk r d' =>
    cases r with
    | ok e => exact ⟨nofun, nofun⟩
    | error e =>
      constructor
      · rintro ⟨⟩
        exact ⟨rfl, rfl⟩
      · rintro ⟨⟨⟩, rfl⟩
        rfl

/-- A group's bodies fail if the first does, or is not of its variable's type, or one of the others fails. -/
theorem typeBodies_cons_error {ε σ : Type} {wrap : InferenceError → ε} {m : Member (Body ε σ)}
    {rest : List (Member (Body ε σ))} {own own' : σ} {e : ε}
    (h : typeBodies wrap (m :: rest) own c = (.error e, own', d)) :
    let noted := c.note .trace fun _ => "[decl] solving: " ++ m.symbol.text
    m.body own noted = (.error e, own', d) ∨ ∃ t own₁ inner, m.body own noted = (.ok t, own₁, inner) ∧
      ((∃ err, inner.expect m.type t = (.error err, d) ∧ e = wrap err ∧ own' = own₁) ∨
        ∃ expected, inner.expect m.type t = (.ok (), expected) ∧
          typeBodies wrap rest own₁ expected = (.error e, own', d)) := by
  rw [typeBodies] at h
  intro noted
  split at h
  · rename_i e' own₁ inner hbody
    cases h
    exact Or.inl hbody
  · rename_i t own₁ inner hbody
    refine Or.inr ⟨t, own₁, inner, hbody, ?_⟩
    split at h
    · rename_i err after hexpect
      cases h
      exact Or.inl ⟨err, hexpect, rfl, rfl⟩
    · rename_i expected hexpect
      exact Or.inr ⟨expected, hexpect, h⟩

/-- **A group is not declared** if its bodies fail, or if one of them is left without a type. -/
theorem declareGroup_fails {ε σ : Type} {wrap : InferenceError → ε} {group : List (Locator × Body ε σ)}
    {own own' : σ} {e : ε} (h : c.declareGroup wrap group own = (.error e, own', d)) :
    let opened := openGroup group c
    (∃ after, typeBodies wrap opened.1 own opened.2 = (.error e, own', after)) ∨
      ∃ after symbol, typeBodies wrap opened.1 own opened.2 = (.ok (), own', after) ∧
        (collectTypes opened.1 (opened.1.foldl (fun c m => c.unpin m.type) after)).1 = .error symbol ∧
        e = wrap (.emptyDeclaration symbol) := by
  intro opened
  unfold declareGroup at h
  cases hrun : typeBodies wrap opened.1 own opened.2 with
  | mk outcome rest =>
    obtain ⟨own₁, after⟩ := rest
    cases outcome with
    | error e' =>
      simp only [opened] at hrun
      simp only [hrun] at h
      cases h
      exact Or.inl ⟨after, rfl⟩
    | ok _ =>
      simp only [opened] at hrun
      simp only [hrun] at h
      cases hcollect : collectTypes opened.1 (opened.1.foldl (fun c m => c.unpin m.type) after) with
      | mk outcome closed =>
        simp only [opened] at hcollect
        simp only [hcollect] at h
        cases outcome with
        | ok types => cases h
        | error symbol =>
          cases h
          exact Or.inr ⟨after, symbol, rfl, by simp only [opened, hcollect], rfl⟩

end Typing

/-! ## Steps that fail -/

namespace Check

variable {ι α : Type}

/-- **`E` holds of every failure of the step**, where the discipline holds. -/
def Fails (D : Discipline Context ι) (given : List ι) (E : Diagnostic → Prop) (m : Check α) : Prop :=
  ∀ c, D.Inv c → (∀ x ∈ given, D.Out c x) → ∀ e d, m c = (.error e, d) → E e

namespace Fails

variable {β : Type} {D : Discipline Context ι} {given : List ι} {E : Diagnostic → Prop}

theorem pure (a : α) : Fails D given E (pure a : Check α) := by
  intro c _ _ e d h
  cases h

theorem weaken {given' : List ι} {m : Check α} (h : Fails D given E m) (hsub : given ⊆ given') :
    Fails D given' E m :=
  fun c hc hgiven => h c hc fun x hx => hgiven x (hsub hx)

/-- One step after the other; the second starts where the first one has kept the discipline. -/
theorem bind {parts : α → List ι} {m : Check α} {k : α → Check β} (hm : Fails D given E m)
    (hobeys : m.Obeys D given parts) (hk : ∀ a, (∃ c d, m c = (.ok a, d)) → Fails D (given ++ parts a) E (k a)) :
    Fails D given E (m >>= k) := by
  intro c hc hgiven e d h
  rcases bind_error.mp h with h | ⟨a, c', hfirst, h⟩
  · exact hm c hc hgiven e d h
  · obtain ⟨hinv, hstep, hout⟩ := hobeys c hc hgiven
    rw [hfirst] at hinv hstep hout
    refine hk a ⟨c, c', hfirst⟩ c' hinv (fun x hx => ?_) e d h
    rcases mem_append.mp hx with hx | hx
    · exact D.mono hstep (hgiven x hx)
    · exact hout a rfl x hx

theorem map {m : Check α} (hm : Fails D given E m) (f : α → β) : Fails D given E (m >>= fun a => Pure.pure (f a)) := by
  intro c hc hgiven e d h
  rcases bind_error.mp h with h | ⟨_, _, -, h⟩
  · exact hm c hc hgiven e d h
  · cases h

theorem located {span : Span} {step : Context → Except InferenceError α × Context}
    (h : ∀ c, D.Inv c → (∀ x ∈ given, D.Out c x) → ∀ cause, (step c).1 = .error cause →
      E (cause.diagnostic.withSpan (some span))) :
    Fails D given E (Check.located span step) := by
  intro c hc hgiven e d hrun
  have hstep := h c hc hgiven
  unfold Check.located at hrun
  cases hout : step c with
  | mk r c' =>
    rw [hout] at hrun hstep
    cases r with
    | ok a => cases hrun
    | error cause =>
      cases hrun
      exact hstep cause rfl

end Fails
end Check

namespace Typing

open Check

/-- **What has to be known of failures**: of which kind those of the solver are, that failures of this kind at the
    places in question are as they should be, and that the discipline is kept where scopes are opened. -/
structure Failing (D : Discipline Context Ty) (S : Span → Prop) (C : InferenceError → Prop)
    (E : Diagnostic → Prop) : Prop extends Solving D where
  obeys : ∀ {α : Type} {m : Check α} {given : List Ty} {parts : α → List Ty},
    (∀ D', Disciplined D' → m.Obeys D' given parts) → m.Obeys D given parts
  parameter : ∀ {c} (x : Ident), D.Inv c →
    D.Inv (openParameter x c).2 ∧ D.Out (openParameter x c).2 (openParameter x c).1
  bound : ∀ {c d home x value p}, D.Inv c → boundValue x (infer home value) c.enter = (.ok p, d) → D.Inv d
  other : ∀ {cause}, (∀ l r, cause ≠ .endless l r) → C cause
  application : ∀ {c f a cause}, D.Inv c → D.Out c f → D.Out c a → (c.apply f a).1 = .error cause → C cause
  unification : ∀ {c l r}, D.Inv c → D.Out c l → D.Out c r → (c.unify l r).1 = .endless → ∀ l r, C (.endless l r)
  located : ∀ {cause s}, C cause → S s → E (cause.diagnostic.withSpan (some s))
  again : ∀ {e s}, E e → E (e.withSpan (some s))
  message : ∀ {text s}, text ∈ ["conditional has no admissible type", "let binding has no value"] → S s →
    E (.errorAt text s)

/-- Looking a symbol up compares nothing. -/
theorem typeOf_error {symbol : Locator} {cause : InferenceError} (h : (c.typeOf symbol).1 = .error cause) (l r : Ty) :
    cause ≠ .endless l r := by
  rintro rfl
  unfold typeOf at h
  extract_lets loaded at h
  by_cases hloaded : loaded
  · rw [if_pos hloaded] at h
    cases hrun : c.environment.typeOf c.store.arena symbol with
    | mk result arena =>
      rw [hrun] at h
      cases result <;> cases h
  · rw [if_neg hloaded] at h
    cases symbol <;> cases h

namespace Failing

variable {D : Discipline Context Ty} {S : Span → Prop} {C : InferenceError → Prop} {E : Diagnostic → Prop}
  {span : Span} (hF : Failing D S C E)
include hF

theorem expect {l r : Ty} {cause : InferenceError} (hc : D.Inv c) (hl : D.Out c l) (hr : D.Out c r)
    (h : (c.expect l r).1 = .error cause) : C cause := by
  have hends := hF.unification hc hl hr
  unfold Context.expect at h
  cases hrun : c.unify l r with
  | mk verdict after =>
    rw [hrun] at h hends
    cases verdict with
    | unified => cases h
    | mismatch =>
      cases h
      exact hF.other nofun
    | endless =>
      cases h
      exact hends rfl _ _

theorem reference (hspan : S span) (l : Locator) : (reference span l).Fails D [] E :=
  .map (.located fun _ _ _ _ h => hF.located (hF.other (typeOf_error h)) hspan) _

theorem applied (hspan : S span) (f a : TypedExpr) : (applied span f a).Fails D [f.type, a.type] E := by
  refine .map (.located fun c hc hgiven _ h => ?_) _
  exact hF.located (hF.application hc (hgiven f.type (by simp)) (hgiven a.type (by simp)) h) hspan

theorem condition (hspan : S span) (found : Ty) :
    Fails D [found] E (Check.located span fun c => c.expect .boolean found) :=
  .located fun c hc hgiven _ h =>
    hF.located (hF.expect hc (hF.simple c _) (hgiven found (by simp)) h) hspan

theorem branchType (hspan : S span) (a b : Ty) : (branchType span a b).Fails D [a, b] E := by
  intro c hc hgiven e d h
  have hends := hF.unification hc (hgiven a (by simp)) (hgiven b (by simp))
  unfold Typing.branchType Check.located at h
  rw [run_bind] at h
  cases hrun : c.unify a b with
  | mk verdict after =>
    rw [hrun] at hends
    simp only [hrun] at h
    cases verdict with
    | endless =>
      cases h
      exact hF.located (hends rfl _ _) hspan
    | unified => cases h
    | mismatch =>
      simp only [run_bind, run_get] at h
      cases hunion : Ty.union? [after.expose a, after.expose b] with
      | some t =>
        simp only [hunion] at h
        cases h
      | none =>
        simp only [hunion] at h
        cases h
        exact hF.message mem_cons_self hspan

/-- The bodies of a group fail like one of them, or because one is not of the type of its variable. -/
theorem bodies {members : List (Member (Body Diagnostic (List TypedExpr)))}
    (hbodies : ∀ m ∈ members, ∃ step : Check TypedExpr, m.body = asBody step ∧ step.Obeys D [] typeOnly ∧
      step.Fails D [] E)
    (hc : D.Inv c) (hmembers : ∀ m ∈ members, D.Out c m.type)
    (h : typeBodies diagnostic members typed c = (.error e, typed', d)) :
    E e ∨ ∃ cause, C cause ∧ e = cause.diagnostic := by
  induction members generalizing typed c with
  | nil => cases h
  | cons m rest ih =>
    obtain ⟨⟨step, hbody, hobeys, hfails⟩, hbodies⟩ := forall_mem_cons.mp hbodies
    obtain ⟨hm, hmembers⟩ := forall_mem_cons.mp hmembers
    obtain ⟨hnoted, hnote⟩ := hF.note c .trace (fun _ => "[decl] solving: " ++ m.symbol.text) (by decide) hc
    rcases typeBodies_cons_error h with hrun | ⟨t, _, inner, hrun, hcases⟩
    · rw [hbody] at hrun
      exact .inl (hfails _ hnoted (by simp) _ _ (asBody_error.mp hrun).1)
    · rw [hbody] at hrun
      obtain ⟨body, hinfer, rfl, -⟩ := asBody_ok.mp hrun
      obtain ⟨hinner, hstep, hout⟩ := hobeys _ hnoted (by simp)
      rw [hinfer] at hinner hstep hout
      have hstep := D.trans hnote hstep
      have hmtype := D.mono hstep hm
      have htype := hout body rfl _ mem_cons_self
      rcases hcases with ⟨cause, hexpect, rfl, -⟩ | ⟨expected, hexpect, h⟩
      · exact .inr ⟨cause, hF.expect hinner hmtype htype (congrArg Prod.fst hexpect), rfl⟩
      · obtain ⟨hexpected, hstep'⟩ := hF.unify inner _ _ hinner hmtype htype
        rw [← expect_state, hexpect] at hexpected hstep'
        exact ih hbodies hexpected (fun m' hm' => D.mono (D.trans hstep hstep') (hmembers m' hm')) h

/-- **What a group of declarations fails with.** -/
theorem group {group : List (Locator × Body Diagnostic (List TypedExpr))}
    (hbodies : ∀ g ∈ group, ∃ step : Check TypedExpr, g.2 = asBody step ∧ step.Obeys D [] typeOnly ∧
      step.Fails D [] E)
    (hopened : D.Inv (openGroup group c).2) (hmembers : ∀ m ∈ (openGroup group c).1, D.Out (openGroup group c).2 m.type)
    (h : c.declareGroup diagnostic group typed = (.error e, typed', d)) :
    E e ∨ ∃ cause, C cause ∧ e = cause.diagnostic := by
  rcases declareGroup_fails h with ⟨after, hrun⟩ | ⟨_, symbol, -, -, rfl⟩
  · exact hF.bodies (fun m hm => hbodies _ (mem_openGroup hm)) hopened hmembers hrun
  · exact .inr ⟨.emptyDeclaration symbol, hF.other nofun, rfl⟩

theorem boundValue {x : Ident} {value : Check TypedExpr} (hx : S x.span) (hobeys : value.Obeys D [] typeOnly)
    (hfails : value.Fails D [] E) (hc : D.Inv c) (h : boundValue x value c.enter = (.error e, d)) : E e := by
  obtain ⟨hopened, hvar⟩ := hF.parameter x hc
  unfold Typing.boundValue declare at h
  cases hrun : c.enter.declareGroup diagnostic [(.variable x.name, asBody value)] [] with
  | mk outcome rest =>
    obtain ⟨typed, after⟩ := rest
    rw [hrun] at h
    cases outcome with
    | error e' =>
      cases h
      have hcause : E e' ∨ ∃ cause, C cause ∧ e' = cause.diagnostic := by
        refine hF.group (fun g hg => ?_) ?_ (fun m hm => ?_) hrun
        · rw [mem_singleton.mp hg]
          exact ⟨value, rfl, hobeys, hfails⟩
        · exact hopened
        · rw [mem_singleton.mp hm]
          exact hvar
      rcases hcause with he | ⟨cause, hcause, rfl⟩
      · exact hF.again he
      · exact hF.located hcause hx
    | ok types =>
      cases types with
      | nil =>
        cases h
        exact hF.located (hF.other nofun) hx
      | cons t ts =>
        cases typed with
        | cons value' more => cases h
        | nil =>
          cases h
          exact hF.message (by simp) hx

/-- **What the typing of an expression fails with.** -/
theorem infer (home : String) {e : Expr} (he : ∀ s ∈ e.places, S s) : (infer home e).Fails D [] E := by
  have hinfer : ∀ e, (Typing.infer home e).Obeys D [] typeOnly := fun e => hF.obeys fun _ hD => hD.infer_obeys home e
  have hreference : ∀ span l, (Typing.reference span l).Obeys D [] typeOnly :=
    fun span l => hF.obeys fun _ hD => hD.reference_obeys span l
  have happlied : ∀ span f a, (Typing.applied span f a).Obeys D [f.type, a.type] typeOnly :=
    fun span f a => hF.obeys fun _ hD => hD.applied_obeys span f a
  induction e with
  | literal span v =>
    unfold Typing.infer
    exact .pure _
  | name span p =>
    unfold Typing.infer
    exact fun c => hF.reference (he _ mem_cons_self) (resolve c home p) c
  | apply span f a ihf iha =>
    unfold Typing.infer
    simp only [Expr.places, forall_mem_cons, forall_mem_append] at he
    refine .bind (ihf he.2.1) (hinfer f) fun f' _ => ?_
    refine .bind ((iha he.2.2).weaken (by simp)) ((hinfer a).weaken (by simp)) fun a' _ => ?_
    exact (hF.applied he.1 f' a').weaken (by simp)
  | binary span op l r ihl ihr =>
    unfold Typing.infer
    simp only [Expr.places, forall_mem_cons, forall_mem_append] at he
    refine .bind (hF.reference he.1 _) (hreference span _) fun f _ => ?_
    refine .bind ((ihl he.2.1).weaken (by simp)) ((hinfer l).weaken (by simp)) fun l' _ => ?_
    refine .bind ((ihr he.2.2).weaken (by simp)) ((hinfer r).weaken (by simp)) fun r' _ => ?_
    refine .bind ((hF.applied he.1 f l').weaken (by simp)) ((happlied span f l').weaken (by simp)) fun half _ => ?_
    exact (hF.applied he.1 half r').weaken (by simp)
  | unary span op x ih =>
    unfold Typing.infer
    simp only [Expr.places, forall_mem_cons] at he
    refine .bind (hF.reference he.1 _) (hreference span _) fun f _ => ?_
    refine .bind ((ih he.2).weaken (by simp)) ((hinfer x).weaken (by simp)) fun x' _ => ?_
    exact (hF.applied he.1 f x').weaken (by simp)
  | lambda span x body ih =>
    unfold Typing.infer
    simp only [Expr.places, forall_mem_cons] at he
    intro c hc _ e d h
    rcases bind_error.mp h with h | ⟨_, _, _, h⟩
    · rw [run_parameter] at h
      split at h
      · rename_i e' inner hrun
        cases h
        exact ih he.2.2 _ (hF.parameter x hc).1 (by simp) _ _ hrun
      · cases h
    · cases h
  | conditional span p a b ihp iha ihb =>
    unfold Typing.infer
    simp only [Expr.places, forall_mem_cons, forall_mem_append] at he
    refine .bind (ihp he.2.1.1) (hinfer p) fun p' hp' => ?_
    -- a condition that is not a boolean is blamed where it stands
    have hspan : S p'.span := by
      obtain ⟨_, _, hrun⟩ := hp'
      exact (allNodes_iff.mp (infer_places he.2.1.1 hrun)).1
    refine .bind ((hF.condition hspan p'.type).weaken (by simp))
      ((hF.obeys fun _ hD => hD.expect_obeys p'.span p'.type).weaken (by simp)) fun _ _ => ?_
    refine .bind ((iha he.2.1.2).weaken (by simp)) ((hinfer a).weaken (by simp)) fun a' _ => ?_
    refine .bind ((ihb he.2.2).weaken (by simp)) ((hinfer b).weaken (by simp)) fun b' _ => ?_
    exact .map ((hF.branchType he.1 a'.type b'.type).weaken (by simp)) _
  | binding span x value body ihv ihb =>
    unfold Typing.infer
    simp only [Expr.places, forall_mem_cons, forall_mem_append] at he
    intro c hc _ e d h
    rw [run_binding] at h
    split at h
    · rename_i e' bound hbound
      cases h
      exact hF.boundValue he.2.1 (hinfer value) (ihv he.2.2.1) hc hbound
    · rename_i t value' bound hbound
      split at h
      · rename_i e' inner hrun
        cases h
        exact ihb he.2.2.2 _ (hF.bound hc hbound) (by simp) _ _ hrun
      · cases h

end Failing
end Typing
end UnionTyping
