import Mathlib.Logic.Equiv.Basic
import UnionTyping.Typing.Infer
import UnionTyping.Proofs.FirstOrder

/-!
# `Proofs.DamasMilner` — let-polymorphism as a system of rules

The typing rules for the part of the language that has literals, local names, applications, functions and
local bindings, without inference: types are chosen where they are needed. A name that is bound by `let` is
monomorphic in its own value and may be generalized over all variables that are not free in the assumptions;
a parameter is monomorphic.

Derivations can be renamed by any permutation of type variables (`HasType.rename`). The permutation `apart`
exchanges some variables for ones that are nowhere in use, which is how the generic variables of a binding
are kept from being mixed up with others.
-/

namespace UnionTyping

open List Ty

/-! ## Monotypes -/

variable {v : TyVar} {t : Ty}

/-- Simple types, functions, records and all variables. -/
def Fragment.plain : Fragment := ⟨fun _ => True, False, False, False, True⟩

/-- Every variable is given a monotype. -/
def Plain (σ : TyVar → Ty) : Prop := ∀ v, (σ v).FirstOrder

namespace Ty

variable {σ : TyVar → Ty}

/-- Monotypes are the fragment without unions, sums and placeholders. -/
theorem firstOrder_iff : t.FirstOrder ↔ t.In .plain := by
  refine forall₂_congr fun u _ => ?_
  cases u <;> simp [Fragment.Admits, Fragment.plain]

/-- A type of any fragment that has neither choices nor placeholders is a monotype. -/
theorem In.firstOrder {F : Fragment} (h : t.In F) (hc : ¬F.choices) (hp : ¬F.placeholders) : t.FirstOrder := by
  intro u hu
  have hadmits := h u hu
  cases u with
  | algebraic n as os => exact absurd hadmits.1 hc
  | recursive n as => exact absurd hadmits hp
  | union ms => exact absurd hadmits.1 hc
  | _ => rfl

@[simp] theorem firstOrder_simple (n : String) : (simple n).FirstOrder :=
  firstOrder_iff.mpr in_simple

@[simp] theorem firstOrder_var (v : TyVar) : (var v).FirstOrder :=
  firstOrder_iff.mpr (in_var.mpr trivial)

@[simp] theorem firstOrder_func {a r : Ty} : (func a r).FirstOrder ↔ a.FirstOrder ∧ r.FirstOrder := by
  simp [firstOrder_iff]

namespace FirstOrder

variable {τ : TyVar → Ty}

theorem child (ht : t.FirstOrder) {c : Ty} (hc : c ∈ t.children) : c.FirstOrder :=
  firstOrder_iff.mpr ((firstOrder_iff.mp ht).child hc)

/-- Monotypes put in for the variables of a monotype give a monotype. -/
theorem subst (ht : t.FirstOrder) (hσ : ∀ v ∈ t.vars, (σ v).FirstOrder) : (t.subst σ).FirstOrder :=
  firstOrder_iff.mpr (In.subst (F := .plain) (firstOrder_iff.mp ht) fun v hv => firstOrder_iff.mp (hσ v hv))

/-- One substitution after another is one substitution: there are no unions to be flattened in between. -/
theorem subst_subst (ht : t.FirstOrder) : (t.subst σ).subst τ = t.subst fun v => (σ v).subst τ :=
  Ty.subst_subst (F := .plain) not_false (firstOrder_iff.mp ht)

/-- What is given to variables that do not occur does not matter. -/
theorem subst_eq_self (ht : t.FirstOrder) (hσ : ∀ v ∈ t.vars, σ v = .var v) : t.subst σ = t := by
  rw [subst_congr hσ]
  clear hσ
  induction t using rigidly with
  | var v => rfl
  | union ms ih => cases ht _ (self_mem_subterms _)
  | rigid t hrigid ih =>
    rw [hrigid.subst_eq]
    exact mapChildren_of_forall_eq fun c hc => ih c hc (ht.child hc)

/-- **Equal instances come from equal choices** for the variables that occur. -/
theorem eq_of_subst_eq (ht : t.FirstOrder) (h : t.subst σ = t.subst τ) (hv : v ∈ t.vars) : σ v = τ v := by
  induction t using rigidly with
  | var w =>
    rw [mem_singleton.mp hv]
    exact h
  | union ms ih => cases ht _ (self_mem_subterms _)
  | rigid t hrigid ih =>
    rcases mem_vars_iff.mp hv with rfl | ⟨c, hc, hvc⟩
    · exact hrigid.elim
    · have hchildren : t.children.map (Ty.subst σ) = t.children.map (Ty.subst τ) := by
        rw [← children_subst hrigid, ← children_subst hrigid, h]
      exact ih c hc (ht.child hc) (map_inj_left.mp hchildren c hc) hvc

end FirstOrder

/-! ## Renaming type variables -/

/-- The type with its variables renamed. -/
def rename (π : TyVar → TyVar) (t : Ty) : Ty :=
  t.subst fun v => .var (π v)

theorem FirstOrder.rename (ht : t.FirstOrder) (π : TyVar → TyVar) : (t.rename π).FirstOrder :=
  ht.subst fun _ _ => firstOrder_var _

/-- Substituting after a renaming asks for what the new names are given. -/
theorem FirstOrder.subst_rename (ht : t.FirstOrder) (π : TyVar → TyVar) :
    (t.rename π).subst σ = t.subst fun v => σ (π v) :=
  ht.subst_subst

theorem mem_vars_rename {π : TyVar → TyVar} {w : TyVar} : w ∈ (t.rename π).vars ↔ ∃ v ∈ t.vars, w = π v := by
  simp [rename, mem_vars_subst]

end Ty

/-! ## Type schemes -/

variable {s : Scheme}

/-- A monotype and those of its variables that are generic. -/
structure Scheme where
  generic : List TyVar
  body : Ty
  monotype : body.FirstOrder

namespace Scheme

/-- A monotype without generic variables. -/
def mono (t : Ty) (ht : t.FirstOrder) : Scheme := ⟨[], t, ht⟩

/-- The type is the scheme's with its generic variables replaced by monotypes. -/
def Instance (s : Scheme) (t : Ty) : Prop :=
  ∃ σ, Plain σ ∧ (∀ v, v ∉ s.generic → σ v = .var v) ∧ s.body.subst σ = t

/-- A variable of the scheme that is not generic. -/
def Free (s : Scheme) (v : TyVar) : Prop := v ∈ s.body.vars ∧ v ∉ s.generic

/-- A monotype is its own only instance. -/
theorem instance_mono {u : Ty} {ht : t.FirstOrder} : (mono t ht).Instance u ↔ u = t := by
  constructor
  · rintro ⟨σ, -, hfixed, rfl⟩
    exact ht.subst_eq_self fun v _ => hfixed v not_mem_nil
  · rintro rfl
    exact ⟨.var, firstOrder_var, fun _ _ => rfl, ht.subst_eq_self fun _ _ => rfl⟩

/-- The scheme with its variables renamed, the generic ones included. -/
def rename (π : TyVar → TyVar) (s : Scheme) : Scheme :=
  ⟨s.generic.map π, s.body.rename π, s.monotype.rename π⟩

/-- Instances are renamed with their scheme: the choice for a generic variable is the renamed old one. -/
theorem Instance.rename (h : s.Instance t) (π : Equiv.Perm TyVar) : (s.rename π).Instance (t.rename π) := by
  obtain ⟨σ, hσ, hfixed, rfl⟩ := h
  refine ⟨fun w => (σ (π.symm w)).rename π, fun w => (hσ _).rename π, fun w hw => ?_, ?_⟩
  · have hgeneric : π.symm w ∉ s.generic := by
      intro hmem
      exact hw (mem_map.mpr ⟨_, hmem, π.apply_symm_apply w⟩)
    simp [hfixed _ hgeneric, Ty.rename, Ty.subst]
  · have hbody := s.monotype.subst_rename (σ := fun w => (σ (π.symm w)).rename π) π
    rw [Scheme.rename, hbody, Ty.rename, s.monotype.subst_subst]
    simp [Ty.rename]

/-- A scheme has the same instances if only generic variables are renamed. -/
theorem Instance.of_rename {π : Equiv.Perm TyVar} (h : (s.rename π).Instance t)
    (hπ : ∀ v, s.Free v → π v = v) : s.Instance t := by
  classical
  obtain ⟨σ, hσ, hfixed, rfl⟩ := h
  refine ⟨fun v => if v ∈ s.generic then σ (π v) else .var v, fun v => ?_, fun v hv => if_neg hv, ?_⟩
  · dsimp only
    split
    · exact hσ _
    · exact firstOrder_var v
  · rw [Scheme.rename, s.monotype.subst_rename]
    refine subst_congr fun v hv => ?_
    by_cases hmem : v ∈ s.generic
    · rw [if_pos hmem]
    · have hv' := hπ v ⟨hv, hmem⟩
      have hgeneric : π v ∉ s.generic.map π := by
        intro h
        obtain ⟨w, hw, heq⟩ := mem_map.mp h
        exact hmem (π.injective heq ▸ hw)
      rw [if_neg hmem, hfixed _ hgeneric, hv']

end Scheme

/-! ## Assumptions -/

variable {Γ : Assumptions}

/-- The schemes of the names in scope. -/
abbrev Assumptions := List (String × Scheme)

namespace Assumptions

/-- The assumptions with another one in place of those about the name. -/
def extend (Γ : Assumptions) (x : String) (s : Scheme) : Assumptions :=
  (x, s) :: Γ.filter fun e => e.1 ≠ x

/-- A variable that is free in an assumption. -/
def Free (Γ : Assumptions) (v : TyVar) : Prop := ∃ e ∈ Γ, e.2.Free v

def rename (π : TyVar → TyVar) (Γ : Assumptions) : Assumptions :=
  Γ.map fun e => (e.1, e.2.rename π)

/-- The new assumption hides the ones about its name, and no others. -/
theorem lookup_extend (Γ : Assumptions) (x y : String) (s : Scheme) :
    (Γ.extend x s).lookup y = if y = x then some s else Γ.lookup y := by
  rw [extend, lookup_cons_ite]
  by_cases h : y = x
  · rw [if_pos h, if_pos h]
  · have hfilter : (Γ.filter fun e => e.1 ≠ x).lookup y = Γ.lookup y := by
      induction Γ with
      | nil => rfl
      | cons e Γ ih =>
        by_cases hx : e.1 = x
        · rw [filter_cons_of_neg (by simpa using hx), ih, lookup_cons_ite, if_neg (hx ▸ h)]
        · rw [filter_cons_of_pos (by simpa using hx), lookup_cons_ite, lookup_cons_ite, ih]
    rw [if_neg h, if_neg h, hfilter]

theorem extend_rename (π : TyVar → TyVar) (Γ : Assumptions) (x : String) (s : Scheme) :
    (Γ.extend x s).rename π = (Γ.rename π).extend x (s.rename π) := by
  rw [extend, extend, rename, rename, map_cons, filter_map]
  rfl

theorem lookup_rename (π : TyVar → TyVar) (Γ : Assumptions) (x : String) :
    (Γ.rename π).lookup x = (Γ.lookup x).map (Scheme.rename π) := by
  rw [rename]
  induction Γ with
  | nil => rfl
  | cons e Γ ih =>
    rw [map_cons, lookup_cons_ite, lookup_cons_ite, ih]
    split <;> rfl

/-- A permutation frees no variable: what is free afterwards was free under its old name. -/
theorem Free.of_rename {π : Equiv.Perm TyVar} (h : (Γ.rename π).Free (π v)) : Γ.Free v := by
  obtain ⟨e, he, hbody, hgeneric⟩ := h
  obtain ⟨d, hd, rfl⟩ := mem_map.mp he
  obtain ⟨w, hw, heq⟩ := mem_vars_rename.mp hbody
  obtain rfl := π.injective heq
  exact ⟨d, hd, hw, fun hmem => hgeneric (mem_map_of_mem hmem)⟩

end Assumptions

/-! ## The rules -/

/-- **Under the assumptions the expression has the type.** -/
inductive HasType : Assumptions → Expr → Ty → Prop
  | literal {Γ span l} : HasType Γ (.literal span l) (Typing.literalType l)
  | name {Γ span x s t} : Γ.lookup x = some s → s.Instance t → HasType Γ (.name span ⟨none, x⟩) t
  | apply {Γ span f x a r} : HasType Γ f (.func a r) → HasType Γ x a → HasType Γ (.apply span f x) r
  | lambda {Γ span x body a r} (ha : a.FirstOrder) : HasType (Γ.extend x.name (.mono a ha)) body r →
      HasType Γ (.lambda span x body) (.func a r)
  | binding {Γ span x value body t r generic} (ht : t.FirstOrder) :
      HasType (Γ.extend x.name (.mono t ht)) value t → (∀ v ∈ generic, ¬Γ.Free v) →
      HasType (Γ.extend x.name ⟨generic, t, ht⟩) body r → HasType Γ (.binding span x value body) r

namespace HasType

/-- **Derivations can be renamed.** -/
theorem rename {e : Expr} (h : HasType Γ e t) (π : Equiv.Perm TyVar) : HasType (Γ.rename π) e (t.rename π) := by
  induction h with
  | @literal Γ span l => cases l <;> exact .literal
  | @name Γ span x s t hs hinstance =>
    refine .name ?_ (hinstance.rename π)
    rw [Assumptions.lookup_rename, hs, Option.map_some]
  | apply _ _ ihf iha => exact .apply ihf iha
  | lambda ha _ ih =>
    rw [Assumptions.extend_rename] at ih
    exact .lambda (ha.rename π) ih
  | @binding Γ span x value body t r generic ht _ hfree _ ihvalue ihbody =>
    rw [Assumptions.extend_rename] at ihvalue ihbody
    refine .binding (ht.rename π) ihvalue (fun w hw hwfree => ?_) ihbody
    obtain ⟨v, hv, rfl⟩ := mem_map.mp hw
    exact hfree v hv hwfree.of_rename

end HasType

/-! ## Renaming apart -/

namespace TyVar

/-- Above finitely many variables there are numbers that none of them has. -/
theorem exists_id_bound (vs : List TyVar) : ∃ n, ∀ v ∈ vs, v.id < n := by
  induction vs with
  | nil => exact ⟨0, by simp⟩
  | cons v vs ih =>
    obtain ⟨n, hn⟩ := ih
    refine ⟨max n (v.id + 1), forall_mem_cons.mpr ⟨by omega, fun w hw => ?_⟩⟩
    have := hn w hw
    omega

/-- A variable with a larger number. -/
def shift (n : Nat) (v : TyVar) : TyVar := ⟨v.id + n, v.name⟩

/-- A variable with a smaller number. -/
def unshift (n : Nat) (v : TyVar) : TyVar := ⟨v.id - n, v.name⟩

@[simp] theorem unshift_shift (n : Nat) (v : TyVar) : (v.shift n).unshift n = v := by
  simp [shift, unshift]

variable {n : Nat} {vs : List TyVar}

/-- A variable that is moved beyond the bound is none of the listed ones. -/
theorem shift_notMem (h : ∀ v ∈ vs, v.id < n) (v : TyVar) : v.shift n ∉ vs := by
  intro hmem
  have hlt : v.id + n < n := h _ hmem
  omega

theorem notMem_map_shift (hlt : v.id < n) : v ∉ vs.map (shift n) := by
  intro hmem
  obtain ⟨w, -, rfl⟩ := mem_map.mp hmem
  have hlt : w.id + n < n := hlt
  omega

/-- Exchanges the listed variables for ones with larger numbers. -/
def exchange (n : Nat) (vs : List TyVar) (v : TyVar) : TyVar :=
  if v ∈ vs then v.shift n else if v ∈ vs.map (shift n) then v.unshift n else v

theorem exchange_of_mem (hv : v ∈ vs) : exchange n vs v = v.shift n :=
  if_pos hv

theorem exchange_shift (h : ∀ v ∈ vs, v.id < n) (hv : v ∈ vs) : exchange n vs (v.shift n) = v := by
  rw [exchange, if_neg (shift_notMem h v), if_pos (mem_map_of_mem hv), unshift_shift]

theorem exchange_of_notMem (hv : v ∉ vs) (hlt : v.id < n) : exchange n vs v = v := by
  rw [exchange, if_neg hv, if_neg (notMem_map_shift hlt)]

/-- Exchanging twice changes nothing, which is what makes it a permutation. -/
theorem exchange_involutive (h : ∀ v ∈ vs, v.id < n) : Function.Involutive (exchange n vs) := by
  intro v
  by_cases hv : v ∈ vs
  · rw [exchange_of_mem hv, exchange_shift h hv]
  · by_cases hshifted : v ∈ vs.map (shift n)
    · obtain ⟨w, hw, rfl⟩ := mem_map.mp hshifted
      rw [exchange_shift h hw, exchange_of_mem hw]
    · have hfixed : exchange n vs v = v := by rw [exchange, if_neg hv, if_neg hshifted]
      rw [hfixed, hfixed]

/-- **Renaming apart**: the listed variables are exchanged for ones that are not in use below the bound. -/
def apart (h : ∀ v ∈ vs, v.id < n) : Equiv.Perm TyVar :=
  Function.Involutive.toPerm _ (exchange_involutive h)

/-- Gives the larger variables what the listed ones are given, and leaves all others alone. -/
def fill (n : Nat) (vs : List TyVar) (σ : TyVar → Ty) (w : TyVar) : Ty :=
  if w ∈ vs.map (shift n) then σ (w.unshift n) else .var w

variable {σ : TyVar → Ty}

/-- Behind the exchange a listed variable is given what it was given before. -/
theorem fill_shift (hv : v ∈ vs) : fill n vs σ (v.shift n) = σ v := by
  rw [fill, if_pos (mem_map_of_mem hv), unshift_shift]

theorem fill_of_lt (hlt : v.id < n) : fill n vs σ v = .var v :=
  if_neg (notMem_map_shift hlt)

theorem plain_fill (hσ : Plain σ) : Plain (fill n vs σ) := by
  intro w
  rw [fill]
  split
  · exact hσ _
  · exact firstOrder_var w

end TyVar

end UnionTyping
