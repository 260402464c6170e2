import UnionTyping.Proofs.Settling

/-!
# `Proofs.Exposed` — the form of exposed types

Exposing leaves no bound variable (`Arena.unbound_of_mem_expose`) and brings every union in the type, at
whatever depth, into normal form: at least two members, no two of them equal and none of them a union. The
second is a fact about substitution (`Ty.Solid.proper_subst`): a union that is rebuilt from members in
normal form is in normal form itself, and everything else is rebuilt from its children. It holds for any
number of hops, so it needs no assumption on cycles.

Exposed types stay valid: what was exposed at one time and is exposed again later is what the type itself
is then. Both have one condition, that no union is without members. A variable that is later bound to such
a union would vanish from the union it is a member of, and where it was the only member before, the two ways
of exposing differ (`hollow_binding_unsettles_exposure`).
-/

namespace UnionTyping

open List Arena

namespace Ty

variable {t : Ty}

/-- **Every union in the type is in normal form**: it has at least two members, no two of them are equal, and
    none of them is a union. -/
def Proper (t : Ty) : Prop :=
  ∀ ms, union ms ∈ t.subterms → 2 ≤ ms.length ∧ ms.Nodup ∧ ∀ m ∈ ms, m.isUnion = false

theorem proper_iff : t.Proper ↔
    (∀ ms, t = union ms → 2 ≤ ms.length ∧ ms.Nodup ∧ ∀ m ∈ ms, m.isUnion = false) ∧ ∀ c ∈ t.children, c.Proper := by
  constructor
  · intro h
    exact ⟨fun ms hms => h ms (hms ▸ self_mem_subterms t),
      fun c hc ms hms => h ms (mem_subterms_iff.mpr (Or.inr ⟨c, hc, hms⟩))⟩
  · rintro ⟨htop, hchildren⟩ ms hms
    rcases mem_subterms_iff.mp hms with heq | ⟨c, hc, hms⟩
    · exact htop ms heq.symm
    · exact hchildren c hc ms hms

theorem Proper.child {c : Ty} (h : t.Proper) (hc : c ∈ t.children) : c.Proper :=
  (proper_iff.mp h).2 c hc

/-- What is not a union is in normal form if its children are. -/
theorem proper_of_rigid (hrigid : t.IsRigid) (h : ∀ c ∈ t.children, c.Proper) : t.Proper := by
  refine proper_iff.mpr ⟨fun ms hms => ?_, h⟩
  rw [hms] at hrigid
  exact hrigid.elim

theorem proper_var (v : TyVar) : (var v).Proper :=
  proper_iff.mpr ⟨(fun _ h => by cases h), fun _ hc => absurd hc not_mem_nil⟩

/-- The alternatives of a type in normal form are no unions, and in normal form themselves. -/
theorem Proper.alternative {m : Ty} (h : t.Proper) (hm : m ∈ t.alternatives) : m.isUnion = false ∧ m.Proper := by
  cases t with
  | union ms => exact ⟨((proper_iff.mp h).1 ms rfl).2.2 m hm, h.child hm⟩
  | _ =>
    rw [mem_singleton.mp hm]
    exact ⟨rfl, h⟩

/-- **A union of types in normal form is in normal form.** -/
theorem proper_union? {ms : List Ty} (h : union? ms = some t) (hms : ∀ m ∈ ms, m.Proper) : t.Proper := by
  have hflat : ∀ u ∈ (ms.flatMap alternatives).eraseDups, u.isUnion = false ∧ u.Proper := by
    intro u hu
    obtain ⟨m, hm, hum⟩ := mem_flattened.mp hu
    exact (hms m hm).alternative hum
  rcases union?_cases h with he | ⟨u, us, rfl, he⟩
  · exact (hflat t (by simp [he])).2
  · refine proper_iff.mpr ⟨fun ns hns => ?_, fun c hc => (hflat c (he ▸ hc)).2⟩
    cases hns
    refine ⟨?_, he ▸ nodup_eraseDups _, fun m hm => (hflat m (he ▸ hm)).1⟩
    cases us with
    | nil =>
      -- a single member would stand for itself
      have hsingle : union? ms = some u := by
        rw [union?, he]
      rw [hsingle, Option.some.injEq] at h
      have hunion := (hflat u (by simp [he])).1
      rw [h] at hunion
      cases hunion
    | cons w ws => simp

/-- **Substitution brings every union into normal form** if the types put in are in normal form. -/
theorem Solid.proper_subst {f : TyVar → Ty} (h : t.Solid) (hf : ∀ v ∈ t.vars, (f v).Solid ∧ (f v).Proper) :
    (t.subst f).Proper := by
  induction t using Ty.rigidly with
  | var v => exact (hf v (by simp)).2
  | rigid t hrigid ih =>
    refine proper_of_rigid hrigid.subst ?_
    rw [children_subst hrigid]
    refine forall_mem_map.mpr fun c hc => ?_
    exact ih c hc (h.child hc) fun v hv => hf v (mem_vars_of_child hc hv)
  | union ms ih =>
    refine proper_union? (h.union?_map fun v hv => (hf v hv).1) (forall_mem_map.mpr fun m hm => ?_)
    exact ih m hm (h.child hm) fun v hv => hf v (mem_vars_of_child (t := union ms) hm hv)

/-- A union in normal form has members. -/
theorem Proper.solid (h : t.Proper) : t.Solid :=
  fun hhollow => absurd (h [] hhollow).1 (by decide)

/-- A union in normal form is the union of its members. -/
theorem Proper.join {ms : List Ty} (h : (union ms).Proper) : join ms = union ms := by
  obtain ⟨htwo, hnodup, hflat⟩ := (proper_iff.mp h).1 ms rfl
  have hsingle : ∀ m ∈ ms, m.alternatives = [m] := by
    intro m hm
    have hm := hflat m hm
    cases m with
    | union ns => cases hm
    | _ => rfl
  rw [Ty.join, union?, flatMap_congr hsingle, flatMap_singleton', eraseDups_of_nodup hnodup]
  obtain _ | ⟨m, _ | ⟨m', ms⟩⟩ := ms
  · rfl
  · simp at htwo
  · rfl

/-- **What is in normal form already stays as it is.** -/
theorem Proper.subst_var (h : t.Proper) : t.subst .var = t := by
  induction t using Ty.rigidly with
  | var v => rfl
  | rigid t hrigid ih =>
    rw [hrigid.subst_eq]
    exact mapChildren_of_forall_eq fun c hc => ih c hc (h.child hc)
  | union ms ih =>
    rw [Ty.subst, substList_eq_map, map_congr_left fun m hm => ih m hm (h.child hm), map_id', h.join]

end Ty

namespace Arena

variable {a : Arena}

/-- However many bindings are followed, what is seen is in normal form at every depth. -/
theorem Solid.proper_exposeWithin (ha : a.Solid) (hops : Nat) (ht : t.Solid) : (a.exposeWithin hops t).Proper := by
  induction hops generalizing t with
  | zero => exact ht.proper_subst fun v _ => ⟨Ty.solid_var v, Ty.proper_var v⟩
  | succ hops ih =>
    refine ht.proper_subst fun v _ => ⟨(ha.exposeWithin (hops + 1) (Ty.solid_var v)).1, ?_⟩
    cases hb : a.binding? v.id with
    | some u => exact ih (ha v.id u hb)
    | none => exact Ty.proper_var v

theorem Solid.proper_expose (ha : a.Solid) (ht : t.Solid) : (a.expose t).Proper :=
  ha.proper_exposeWithin a.size ht

end Arena

/-! ## Normal and stable -/

/-- **Exposure is normal and stable.** Without cycles and without unions that have no members, an exposed type
    has no bound variable, all its unions are in normal form, and it exposes, in any later arena of the same
    kind that keeps the bindings, as the type itself does. -/
theorem exposure_is_normal_and_stable {a : Arena} (hacyclic : a.Acyclic) (ha : a.Solid) {t : Ty}
    (ht : t.Solid) :
    (∀ v ∈ (a.expose t).vars, a.binding? v.id = none) ∧
    (a.expose t).Proper ∧
    (∀ b : Arena, b.Acyclic → b.Solid → (∀ id u, a.binding? id = some u → b.binding? id = some u) →
      b.expose (a.expose t) = b.expose t) ∧
    a.expose (a.expose t) = a.expose t :=
  ⟨fun _ hv => Arena.unbound_of_mem_expose hacyclic hv, ha.proper_expose ht,
    fun _ hb hsolid hkept => Arena.expose_expose_of_kept hkept ha hsolid hb ht,
    Arena.expose_expose_of_kept (fun _ _ hu => hu) ha ha hacyclic ht⟩

/-- A variable bound to the union of another one and `Integer`, which takes in the other one's binding once
    there is one. -/
theorem exposure_is_normal_and_stable_merging :
    let x : TyVar := ⟨0, "x"⟩
    let y : TyVar := ⟨1, "y"⟩
    let a : Arena := ⟨#[⟨"x", none⟩, ⟨"y", some (.union [.var x, .integer])⟩], [1]⟩
    let b : Arena := ⟨#[⟨"x", some .integer⟩, ⟨"y", some (.union [.var x, .integer])⟩], [0, 1]⟩
    let t : Ty := .func (.union [.var y, .union [.string, .var y]]) (.var y)
    a.expose t = .func (.union [.var x, .integer, .string]) (.union [.var x, .integer]) ∧
      b.expose (a.expose t) = b.expose t ∧ b.expose t = .func (.union [.integer, .string]) .integer := by
  intro x y a b t
  have hfirst : ∀ id u, a.binding? id = some u → id = 1 ∧ u = .union [.var x, .integer] := by
    rintro (_ | _ | id) u hu
    · cases hu
    · cases hu
      exact ⟨rfl, rfl⟩
    · cases hu
  have hlater : ∀ id u, b.binding? id = some u →
      (id = 0 ∧ u = .integer) ∨ (id = 1 ∧ u = .union [.var x, .integer]) := by
    rintro (_ | _ | id) u hu
    · cases hu
      exact Or.inl ⟨rfl, rfl⟩
    · cases hu
      exact Or.inr ⟨rfl, rfl⟩
    · cases hu
  have ha : a.Acyclic := by
    refine Arena.acyclic_of_decreasing fun id u hu v hv => ?_
    obtain ⟨rfl, rfl⟩ := hfirst id u hu
    rw [List.mem_singleton.mp hv]
    decide
  have hb : b.Acyclic := by
    refine Arena.acyclic_of_decreasing fun id u hu v hv => ?_
    rcases hlater id u hu with ⟨rfl, rfl⟩ | ⟨rfl, rfl⟩
    · cases hv
    · rw [List.mem_singleton.mp hv]
      decide
  have hsolid : a.Solid := by
    intro id u hu
    rw [(hfirst id u hu).2]
    decide +kernel
  have hsolid' : b.Solid := by
    intro id u hu
    rcases hlater id u hu with ⟨-, rfl⟩ | ⟨-, rfl⟩
    · decide +kernel
    · decide +kernel
  have hkept : ∀ id u, a.binding? id = some u → b.binding? id = some u := by
    intro id u hu
    obtain ⟨rfl, rfl⟩ := hfirst id u hu
    rfl
  have hresult := exposure_is_normal_and_stable ha hsolid (t := t) (by decide +kernel)
  exact ⟨by decide +kernel, hresult.2.2.1 b hb hsolid' hkept, by decide +kernel⟩

/-- **A later binding to a union without members** tells an exposed type from the type itself: the union of a
    variable with itself is the variable, and remains so after the variable has lost all its alternatives,
    while of the union itself two members without alternatives are left. -/
theorem hollow_binding_unsettles_exposure :
    let x : TyVar := ⟨2, "t2"⟩
    let a : Arena := (Context.new "main" false).fresh.2.store.arena
    let t : Ty := .union [.var x, .var x]
    ∃ b, a.bind? x.id (.union []) = .ok b ∧ a.Acyclic ∧ a.Solid ∧ t.Solid ∧ b.Acyclic ∧
      (∀ id u, a.binding? id = some u → b.binding? id = some u) ∧
      a.expose t = .var x ∧ b.expose (.var x) = .union [] ∧
      b.expose t = .union [.union [], .union []] := by
  intro x a t
  have hnone : ∀ id, a.binding? id = none :=
    fun id => (Arena.binding?_fresh _ id).trans (Context.binding?_new "main" false id)
  have hbound : a.bind? x.id (.union []) = .ok ⟨#[⟨"t0", none⟩, ⟨"t1", none⟩, ⟨"t2", some (.union [])⟩], [2]⟩ := by
    decide +kernel
  refine ⟨_, hbound, Arena.acyclic_of_decreasing fun id u hu => ?_, fun id u hu => ?_, by decide +kernel,
    Arena.acyclic_of_decreasing fun id u hu v hv => ?_, fun id u hu => ?_, by decide +kernel, by decide +kernel,
    by decide +kernel⟩
  · rw [hnone] at hu
    cases hu
  · rw [hnone] at hu
    cases hu
  · rw [Arena.binding?_bind hbound, hnone] at hu
    split at hu
    · cases hu
      cases hv
    · cases hu
  · rw [hnone] at hu
    cases hu

end UnionTyping
