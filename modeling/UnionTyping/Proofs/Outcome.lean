import UnionTyping.Proofs.Scopes

/-!
# `Proofs.Outcome` — what a typing went through if it succeeded

Typing succeeds if and only if each of its steps does, in order. There is one equivalence for each form of
expression, in terms of the outcomes of its parts. They are read from left to right to take a typing apart,
and from right to left to put one together.

A local binding is typed as a group of one declaration: from what its value gives follows whether it
succeeds, and with it what the context is like for the expression behind it (`BindsName`).
-/

namespace UnionTyping

open Context

/-! ## Steps in sequence -/

namespace Check

variable {α β : Type} {c d : Context}

/-- Two steps in sequence succeed if both do, the second one from where the first one ended. -/
theorem bind_ok {m : Check α} {k : α → Check β} {b : β} :
    (m >>= k) c = (.ok b, d) ↔ ∃ a c', m c = (.ok a, c') ∧ k a c' = (.ok b, d) := by
  rw [run_bind]
  cases m c with
  | mk r c' =>
    cases r with
    | error e =>
      constructor
      · nofun
      · rintro ⟨_, _, ⟨⟩, -⟩
    | ok a =>
      constructor
      · exact fun h => ⟨a, c', rfl, h⟩
      · rintro ⟨_, _, ⟨⟩, h⟩
        exact h

theorem bind_error {m : Check α} {k : α → Check β} {e : Diagnostic} :
    (m >>= k) c = (.error e, d) ↔ m c = (.error e, d) ∨ ∃ a c', m c = (.ok a, c') ∧ k a c' = (.error e, d) := by
  rw [run_bind]
  cases m c with
  | mk r c' =>
    cases r with
    | error e' =>
      constructor
      · intro h
        cases h
        exact Or.inl rfl
      · rintro (h | ⟨_, _, h, -⟩)
        · cases h
          rfl
        · cases h
    | ok a =>
      constructor
      · exact fun h => Or.inr ⟨a, c', rfl, h⟩
      · rintro (h | ⟨_, _, h, hk⟩)
        · cases h
        · cases h
          exact hk

/-- Saying where an error would be changes no success. -/
theorem located_ok {span : Span} {step : Context → Except InferenceError α × Context} {a : α} :
    located span step c = (.ok a, d) ↔ step c = (.ok a, d) := by
  unfold located
  cases step c with
  | mk r c' =>
    cases r with
    | error e => exact ⟨nofun, nofun⟩
    | ok a =>
      constructor
      · rintro ⟨⟩
        rfl
      · rintro ⟨⟩
        rfl

theorem pure_ok {a b : α} : (pure a : Check α) c = (.ok b, d) ↔ b = a ∧ d = c := by
  constructor
  · rintro ⟨⟩
    exact ⟨rfl, rfl⟩
  · rintro ⟨rfl, rfl⟩
    rfl

theorem get_ok {a : Context} : (get : Check Context) c = (.ok a, d) ↔ a = c ∧ d = c := by
  constructor
  · rintro ⟨⟩
    exact ⟨rfl, rfl⟩
  · rintro ⟨rfl, rfl⟩
    rfl

end Check

namespace Typing

open Check

/-! ## Forms of expressions -/

variable {t : Ty} {x : Ident} {home : String} {span : Span} {c d : Context} {e : TypedExpr}

theorem literal_ok {v : Literal} :
    infer home (.literal span v) c = (.ok e, d) ↔ e = .literal span (literalType v) v ∧ d = c := by
  unfold infer
  exact pure_ok

/-- A reference that is typed has the type that its symbol is looked up with. -/
theorem reference_ok {l : Locator} :
    reference span l c = (.ok e, d) ↔ ∃ t, c.typeOf l = (.ok t, d) ∧ e = .reference span t ⟨l, t⟩ := by
  simp only [reference, bind_ok, located_ok, pure_ok]
  constructor
  · rintro ⟨t, _, ht, rfl, rfl⟩
    exact ⟨t, ht, rfl⟩
  · rintro ⟨t, ht, rfl⟩
    exact ⟨t, d, ht, rfl, rfl⟩

theorem name_ok {p : Path} :
    infer home (.name span p) c = (.ok e, d) ↔ reference span (resolve c home p) c = (.ok e, d) := by
  rw [infer, bind_ok]
  constructor
  · rintro ⟨_, _, hget, h⟩
    obtain ⟨rfl, rfl⟩ := get_ok.mp hget
    exact h
  · exact fun h => ⟨c, c, rfl, h⟩

theorem applied_ok {f a : TypedExpr} :
    applied span f a c = (.ok e, d) ↔ ∃ t, c.apply f.type a.type = (.ok t, d) ∧ e = .apply span t f a := by
  simp only [applied, bind_ok, located_ok, pure_ok]
  constructor
  · rintro ⟨t, _, ht, rfl, rfl⟩
    exact ⟨t, ht, rfl⟩
  · rintro ⟨t, ht, rfl⟩
    exact ⟨t, d, ht, rfl, rfl⟩

theorem apply_ok {f a : Expr} :
    infer home (.apply span f a) c = (.ok e, d) ↔ ∃ f' c₁ a' c₂, infer home f c = (.ok f', c₁) ∧
      infer home a c₁ = (.ok a', c₂) ∧ applied span f' a' c₂ = (.ok e, d) := by
  rw [infer]
  simp only [bind_ok]
  constructor
  · rintro ⟨f', c₁, hf, a', c₂, ha, h⟩
    exact ⟨f', c₁, a', c₂, hf, ha, h⟩
  · rintro ⟨f', c₁, a', c₂, hf, ha, h⟩
    exact ⟨f', c₁, hf, a', c₂, ha, h⟩

theorem binary_ok {op : BinaryOp} {l r : Expr} :
    infer home (.binary span op l r) c = (.ok e, d) ↔ ∃ f c₁ l' c₂ r' c₃ half c₄,
      reference span (Builtin.locator op.symbol) c = (.ok f, c₁) ∧ infer home l c₁ = (.ok l', c₂) ∧
      infer home r c₂ = (.ok r', c₃) ∧ applied span f l' c₃ = (.ok half, c₄) ∧
      applied span half r' c₄ = (.ok e, d) := by
  rw [infer]
  simp only [bind_ok]
  constructor
  · rintro ⟨f, c₁, hf, l', c₂, hl, r', c₃, hr, half, c₄, hhalf, h⟩
    exact ⟨f, c₁, l', c₂, r', c₃, half, c₄, hf, hl, hr, hhalf, h⟩
  · rintro ⟨f, c₁, l', c₂, r', c₃, half, c₄, hf, hl, hr, hhalf, h⟩
    exact ⟨f, c₁, hf, l', c₂, hl, r', c₃, hr, half, c₄, hhalf, h⟩

theorem unary_ok {op : UnaryOp} {x : Expr} :
    infer home (.unary span op x) c = (.ok e, d) ↔ ∃ f c₁ x' c₂,
      reference span (Builtin.locator op.declaredName) c = (.ok f, c₁) ∧ infer home x c₁ = (.ok x', c₂) ∧
      applied span f x' c₂ = (.ok e, d) := by
  rw [infer]
  simp only [bind_ok]
  constructor
  · rintro ⟨f, c₁, hf, x', c₂, hx, h⟩
    exact ⟨f, c₁, x', c₂, hf, hx, h⟩
  · rintro ⟨f, c₁, x', c₂, hf, hx, h⟩
    exact ⟨f, c₁, hf, x', c₂, hx, h⟩

/-- **What two branches come to**: the type of the first one if they unify, and the union of both otherwise. -/
def Joins (c : Context) (a b t : Ty) : Prop :=
  ((c.unify a b).1 = .unified ∧ t = (c.unify a b).2.expose a) ∨
    ((c.unify a b).1 = .mismatch ∧
      Ty.union? [(c.unify a b).2.expose a, (c.unify a b).2.expose b] = some t)

theorem branchType_ok {a b : Ty} : branchType span a b c = (.ok t, d) ↔ Joins c a b t ∧ d = (c.unify a b).2 := by
  unfold branchType Joins
  rw [bind_ok]
  simp only [located_ok]
  cases c.unify a b with
  | mk verdict after =>
    cases verdict with
    | endless =>
      constructor
      · rintro ⟨_, _, ⟨⟩, -⟩
      · rintro ⟨⟨⟨⟩, -⟩ | ⟨⟨⟩, -⟩, -⟩
    | unified =>
      constructor
      · rintro ⟨_, _, ⟨⟩, h⟩
        obtain ⟨_, _, hget, h⟩ := bind_ok.mp h
        obtain ⟨rfl, rfl⟩ := get_ok.mp hget
        obtain ⟨rfl, rfl⟩ := pure_ok.mp h
        exact ⟨Or.inl ⟨rfl, rfl⟩, rfl⟩
      · rintro ⟨⟨-, rfl⟩ | ⟨⟨⟩, -⟩, rfl⟩
        exact ⟨_, _, rfl, rfl⟩
    | mismatch =>
      constructor
      · rintro ⟨_, _, ⟨⟩, h⟩
        obtain ⟨_, _, hget, h⟩ := bind_ok.mp h
        obtain ⟨hnow, hsame⟩ := get_ok.mp hget
        rw [hnow, hsame] at h
        cases hunion : Ty.union? [after.expose a, after.expose b] with
        | none =>
          rw [hunion] at h
          cases h
        | some u =>
          rw [hunion] at h
          obtain ⟨rfl, rfl⟩ := pure_ok.mp h
          exact ⟨Or.inr ⟨rfl, rfl⟩, rfl⟩
      · rintro ⟨⟨⟨⟩, -⟩ | ⟨-, hunion⟩, rfl⟩
        refine ⟨_, _, rfl, bind_ok.mpr ⟨_, _, rfl, ?_⟩⟩
        simp [hunion, run_pure]

theorem conditional_ok {cond a b : Expr} :
    infer home (.conditional span cond a b) c = (.ok e, d) ↔ ∃ cond' c₁ c₂ a' c₃ b' c₄ t,
      infer home cond c = (.ok cond', c₁) ∧ c₁.expect .boolean cond'.type = (.ok (), c₂) ∧
      infer home a c₂ = (.ok a', c₃) ∧ infer home b c₃ = (.ok b', c₄) ∧
      branchType span a'.type b'.type c₄ = (.ok t, d) ∧ e = .conditional span t cond' a' b' := by
  rw [infer]
  simp only [bind_ok, located_ok, pure_ok]
  constructor
  · rintro ⟨cond', c₁, hcond, _, c₂, hexpect, a', c₃, ha, b', c₄, hb, t, _, ht, rfl, rfl⟩
    exact ⟨cond', c₁, c₂, a', c₃, b', c₄, t, hcond, hexpect, ha, hb, ht, rfl⟩
  · rintro ⟨cond', c₁, c₂, a', c₃, b', c₄, t, hcond, hexpect, ha, hb, ht, rfl⟩
    exact ⟨cond', c₁, hcond, (), c₂, hexpect, a', c₃, ha, b', c₄, hb, t, d, ht, rfl, rfl⟩

/-- The scope of a parameter is closed behind a body that succeeds. -/
theorem parameter_ok {body : Check TypedExpr} {v : Ty} :
    within (openParameter x) closeParameter (fun v => do return (v, ← body)) c = (.ok (v, e), d) ↔
    ∃ inner, body (openParameter x c).2 = (.ok e, inner) ∧ v = (openParameter x c).1 ∧
      d = closeParameter (openParameter x c).1 inner := by
  rw [run_parameter]
  cases body (openParameter x c).2 with
  | mk r inner =>
    cases r with
    | error _ =>
      constructor
      · nofun
      · rintro ⟨_, ⟨⟩, -⟩
    | ok body' =>
      constructor
      · rintro ⟨⟩
        exact ⟨inner, rfl, rfl, rfl⟩
      · rintro ⟨_, ⟨⟩, rfl, rfl⟩
        rfl

theorem lambda_ok {body : Expr} : infer home (.lambda span x body) c = (.ok e, d) ↔ ∃ body' inner,
      infer home body (openParameter x c).2 = (.ok body', inner) ∧
      d = closeParameter (openParameter x c).1 inner ∧
      e = .lambda span (.func (d.expose (openParameter x c).1) body'.type)
        ⟨.variable x.name, (openParameter x c).1⟩ body' := by
  rw [infer, bind_ok]
  constructor
  · rintro ⟨⟨v, body'⟩, closed, hbody, h⟩
    obtain ⟨inner, hinner, rfl, rfl⟩ := parameter_ok.mp hbody
    cases h
    exact ⟨body', inner, hinner, rfl, rfl⟩
  · rintro ⟨body', inner, hinner, rfl, rfl⟩
    exact ⟨(_, body'), _, parameter_ok.mpr ⟨inner, hinner, rfl, rfl⟩, rfl⟩

theorem binding_ok {value body : Expr} :
    infer home (.binding span x value body) c = (.ok e, d) ↔ ∃ t value' bound body' inner,
      boundValue x (infer home value) c.enter = (.ok (t, value'), bound) ∧
      infer home body bound = (.ok body', inner) ∧ d = inner.leave ∧
      e = .binding span body'.type ⟨.variable x.name, t⟩ value' body' := by
  rw [infer, run_binding]
  constructor
  · intro h
    cases hvalue : boundValue x (infer home value) c.enter with
    | mk r bound =>
      rw [hvalue] at h
      cases r with
      | error _ => cases h
      | ok p =>
        simp only [] at h
        cases hbody : infer home body bound with
        | mk r inner =>
          rw [hbody] at h
          cases r with
          | error _ => cases h
          | ok body' =>
            cases h
            exact ⟨p.1, p.2, bound, body', inner, rfl, hbody, rfl, rfl⟩
  · rintro ⟨t, value', bound, body', inner, hvalue, hbody, rfl, rfl⟩
    rw [hvalue]
    simp [hbody]

/-! ## Local bindings -/

variable {typed : List TypedExpr}

/-- Where the value of a local binding is typed: in the scope of the name. -/
def openValue (x : Ident) (c : Context) : Context :=
  (openParameter x c).2.note .trace fun _ => "[decl] solving: " ++ (Locator.variable x.name).text

/-- The name is left in a scope of its own, with the variable that its value was typed against. -/
structure BindsName (x : Ident) (c d bound : Context) : Prop where
  environment : bound.environment = c.enter.environment.define (.variable x.name) (openParameter x c).1
  arena : bound.store.arena = d.store.arena

variable {value : Check TypedExpr} {value' : TypedExpr}

theorem asBody_ok {step : Check TypedExpr} {typed' : List TypedExpr} : asBody step typed c = (.ok t, typed', d) ↔
      ∃ e, step c = (.ok e, d) ∧ t = e.type ∧ typed' = typed ++ [e] := by
  unfold asBody
  cases step c with
  | mk r d' =>
    cases r with
    | error e => exact ⟨nofun, nofun⟩
    | ok e =>
      constructor
      · intro h
        cases h
        exact ⟨e, rfl, rfl, rfl⟩
      · rintro ⟨e', h, rfl, rfl⟩
        cases h
        rfl

/-- A group's bodies succeed if the first does, can be of its variable's type, and the others do then. -/
theorem typeBodies_cons_ok {ε σ : Type} {wrap : InferenceError → ε} {m : Member (Body ε σ)}
    {rest : List (Member (Body ε σ))} {own own' : σ} :
    typeBodies wrap (m :: rest) own c = (.ok (), own', d) ↔ ∃ t own₁ inner expected,
      m.body own (c.note .trace fun _ => "[decl] solving: " ++ m.symbol.text) = (.ok t, own₁, inner) ∧
      inner.expect m.type t = (.ok (), expected) ∧
      typeBodies wrap rest own₁ expected = (.ok (), own', d) := by
  rw [typeBodies]
  constructor
  · intro h
    split at h
    · cases h
    · rename_i t own₁ inner hbody
      split at h
      · cases h
      · rename_i expected hexpect
        exact ⟨t, own₁, inner, expected, hbody, hexpect, h⟩
  · rintro ⟨t, own₁, inner, expected, hbody, hexpect, hrest⟩
    simp [hbody, hexpect, hrest]

theorem typeValue_ok :
    typeValue x value c = (.ok (), typed, d) ↔ ∃ value' inner, value (openValue x c) = (.ok value', inner) ∧
      inner.expect (openParameter x c).1 value'.type = (.ok (), d) ∧ typed = [value'] := by
  constructor
  · intro h
    obtain ⟨t, own, inner, expected, hbody, hexpect, hrest⟩ := typeBodies_cons_ok.mp h
    obtain ⟨value', hvalue, rfl, rfl⟩ := asBody_ok.mp hbody
    cases hrest
    exact ⟨value', inner, hvalue, hexpect, rfl⟩
  · rintro ⟨value', inner, hvalue, hexpect, rfl⟩
    exact typeBodies_cons_ok.mpr
      ⟨value'.type, [value'], inner, d, asBody_ok.mpr ⟨value', hvalue, rfl, rfl⟩, hexpect, rfl⟩

/-- What becomes of a value that is typed: it is bound to its name if it has a type. -/
theorem boundValue_typed (htyped : typeValue x value c = (.ok (), [value'], d)) :
    ((d.unpin (openParameter x c).1).decompose (openParameter x c).1 = [] ∧
      ∃ e d', boundValue x value c.enter = (.error e, d')) ∨
    (d.unpin (openParameter x c).1).decompose (openParameter x c).1 ≠ [] ∧
      ∃ message, boundValue x value c.enter = (.ok ((d.unpin (openParameter x c).1).expose (openParameter x c).1,
        value'), (d.unpin (openParameter x c).1).note .debug message) := by
  unfold typeValue at htyped
  unfold boundValue declare declareGroup
  simp only [openGroup_value, htyped, List.foldl_cons, List.foldl_nil, collectTypes]
  by_cases hempty : (d.unpin (openParameter x c).1).decompose (openParameter x c).1 = []
  · rw [if_pos (List.isEmpty_iff.mpr hempty)]
    exact Or.inl ⟨hempty, _, _, rfl⟩
  · rw [if_neg (mt List.isEmpty_iff.mp hempty)]
    exact Or.inr ⟨hempty, _, rfl⟩

/-- A value that is not typed is not bound. -/
theorem boundValue_untyped {e : Diagnostic} (htyped : typeValue x value c = (.error e, typed, d)) :
    ∃ e d', boundValue x value c.enter = (.error e, d') := by
  unfold typeValue at htyped
  unfold boundValue declare declareGroup
  simp only [openGroup_value, htyped]
  exact ⟨_, _, rfl⟩

section Restoring

variable {inner : Context} (hrestores : ∀ c, restoring.Step c (value c).2)
  (hvalue : value (openValue x c) = (.ok value', inner))
  (hexpect : inner.expect (openParameter x c).1 value'.type = (.ok (), d))
include hrestores hvalue hexpect

/-- The variable of the name is released where it was pinned, for the value restores the scopes. -/
theorem unpin_value : d.unpin (openParameter x c).1 =
    { d with environment := c.enter.environment.define (.variable x.name) (openParameter x c).1 } := by
  have hinner : inner.environment = (openParameter x c).2.environment := by
    have h := (hrestores (openValue x c)).1
    rw [hvalue] at h
    exact h
  have hd : d.environment = inner.environment := by
    have h := congrArg environment (inner.expect_state (openParameter x c).1 value'.type)
    rw [hexpect] at h
    exact h
  have henv : d.environment = (c.enter.environment.define (.variable x.name)
      (openParameter x c).1).pinAll [(openParameter x c).1] := hd.trans hinner
  rw [unpin_of_pinned List.mem_cons_self henv, List.erase_cons_head]
  rfl

/-- **A local binding succeeds** if its value does, can be of the variable's type and is of some type at all;
    the name is then left in scope. -/
theorem boundValue_ok (hsome : d.decompose (openParameter x c).1 ≠ []) :
    ∃ t bound, boundValue x value c.enter = (.ok (t, value'), bound) ∧ BindsName x c d bound := by
  have hunpin := unpin_value hrestores hvalue hexpect
  rcases boundValue_typed (typeValue_ok.mpr ⟨value', inner, hvalue, hexpect, rfl⟩) with
    ⟨hempty, -⟩ | ⟨-, message, hbound⟩
  · rw [hunpin] at hempty
    exact absurd hempty hsome
  · rw [hunpin] at hbound
    exact ⟨_, _, hbound, rfl, rfl⟩

end Restoring

/-- **A local binding that succeeds** has a value that does, and its type is what is seen of the variable of its
    name. -/
theorem of_boundValue_ok (hrestores : ∀ c, restoring.Step c (value c).2) {bound : Context}
    (h : boundValue x value c.enter = (.ok (t, value'), bound)) :
    ∃ inner d, value (openValue x c) = (.ok value', inner) ∧
      inner.expect (openParameter x c).1 value'.type = (.ok (), d) ∧ BindsName x c d bound ∧
      t = bound.expose (openParameter x c).1 := by
  cases htyped : typeValue x value c with
  | mk outcome rest =>
    obtain ⟨typed, d⟩ := rest
    cases outcome with
    | error e =>
      obtain ⟨_, _, hfailed⟩ := boundValue_untyped htyped
      rw [hfailed] at h
      cases h
    | ok _ =>
      obtain ⟨value'', inner, hvalue, hexpect, rfl⟩ := typeValue_ok.mp htyped
      have hunpin := unpin_value hrestores hvalue hexpect
      rcases boundValue_typed htyped with ⟨-, _, _, hfailed⟩ | ⟨-, message, hbound⟩
      · rw [hfailed] at h
        cases h
      · rw [hunpin, h] at hbound
        cases hbound
        exact ⟨inner, d, hvalue, hexpect, ⟨rfl, rfl⟩, rfl⟩

end Typing

end UnionTyping
