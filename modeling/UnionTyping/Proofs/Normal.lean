import UnionTyping.Proofs.Transaction

/-!
# `Proofs.Normal` — unions in normal form, and exposing what was exposed before

Substitution leaves unions in normal form: flattened, without repetitions and with at least two members. So
it makes a difference for the result of a substitution whether its values are in normal form, but none
whether it is applied at once or in two steps (`Ty.Solid.subst_subst`). Since the members of a union keep
the order in which they are met first, the results are the same to the letter.

Exposing is substitution by values in normal form. Hence a type that was exposed at one time and is exposed
again at a later time is what the type itself is then (`Arena.expose_expose`).
-/

namespace UnionTyping

open List Ty

/-! ## Lists without repetitions -/

section Repetitions

variable {α β : Type} [BEq α] [LawfulBEq α] [BEq β] [LawfulBEq β]

theorem eraseDups_filter (p : α → Bool) (xs : List α) : (xs.filter p).eraseDups = xs.eraseDups.filter p := by
  induction h : xs.length using Nat.strongRecOn generalizing xs with
  | ind n ih =>
    cases xs with
    | nil => rfl
    | cons x xs =>
      have hlt : (xs.filter fun y => !y == x).length < n := by
        have hle := length_filter_le (fun y => !y == x) xs
        rw [length_cons] at h
        omega
      rw [eraseDups_cons, filter_cons, filter_cons, ← ih _ hlt _ rfl]
      cases hp : p x with
      | true =>
        simp only [if_true, eraseDups_cons, filter_filter, Bool.and_comm]
      | false =>
        -- the first element is not kept, and neither are its repetitions
        have hsame : (xs.filter p) = (xs.filter fun y => !y == x).filter p := by
          rw [filter_filter]
          refine filter_congr fun y hy => ?_
          by_cases hyx : y = x
          · simp [hyx, hp]
          · simp [hyx]
        simp [hsame]

theorem eraseDups_removeAll (xs ys : List α) : (xs.removeAll ys).eraseDups = xs.eraseDups.removeAll ys :=
  eraseDups_filter _ xs

theorem removeAll_congr {ys zs : List α} (h : ∀ x, x ∈ ys ↔ x ∈ zs) (xs : List α) :
    xs.removeAll ys = xs.removeAll zs := by
  refine filter_congr fun x _ => ?_
  simp only [elem_eq_contains]
  rw [Bool.eq_iff_iff]
  simp [h x]

/-- Repetitions can be erased from both parts first. -/
theorem eraseDups_append_congr {xs ys zs ws : List α} (h : xs.eraseDups = ys.eraseDups)
    (h' : zs.eraseDups = ws.eraseDups) : (xs ++ zs).eraseDups = (ys ++ ws).eraseDups := by
  have hmem : ∀ x, x ∈ xs ↔ x ∈ ys := by
    intro x
    rw [← mem_eraseDups, h, mem_eraseDups]
  rw [eraseDups_append, eraseDups_append, h, eraseDups_removeAll, eraseDups_removeAll, h', removeAll_congr hmem]

/-- What is there already is a repetition. -/
theorem eraseDups_append_absorb {xs ys zs : List α} (h : ys ⊆ xs) :
    (xs ++ (ys ++ zs)).eraseDups = (xs ++ zs).eraseDups := by
  have hnone : ys.removeAll xs = [] := by
    refine filter_eq_nil_iff.mpr fun y hy => ?_
    simp [h hy]
  have hremove : (ys ++ zs).removeAll xs = zs.removeAll xs := by
    rw [List.removeAll, filter_append]
    change ys.removeAll xs ++ zs.removeAll xs = _
    rw [hnone, nil_append]
  rw [eraseDups_append, eraseDups_append, hremove]

omit [BEq β] [LawfulBEq β] in
theorem eraseDups_flatMap_congr {f g : β → List α} {xs : List β} (h : ∀ x ∈ xs, (f x).eraseDups = (g x).eraseDups) :
    (xs.flatMap f).eraseDups = (xs.flatMap g).eraseDups := by
  induction xs with
  | nil => rfl
  | cons x xs ih =>
    obtain ⟨hx, hxs⟩ := forall_mem_cons.mp h
    exact eraseDups_append_congr hx (ih hxs)

/-- Behind what an element gives, the element itself can be left out. -/
theorem eraseDups_flatMap_filter {f : β → List α} {x : β} {pre : List α} (h : f x ⊆ pre) (xs : List β) :
    (pre ++ (xs.filter fun y => !y == x).flatMap f).eraseDups = (pre ++ xs.flatMap f).eraseDups := by
  induction xs generalizing pre with
  | nil => rfl
  | cons y ys ih =>
    rw [filter_cons, flatMap_cons]
    by_cases hy : y = x
    · rw [hy, eraseDups_append_absorb h]
      simpa using ih h
    · have hsub : f x ⊆ pre ++ f y := subset_append_of_subset_left _ h
      simpa [hy, append_assoc] using ih hsub

theorem eraseDups_flatMap_eraseDups (f : β → List α) (xs : List β) :
    (xs.eraseDups.flatMap f).eraseDups = (xs.flatMap f).eraseDups := by
  induction h : xs.length using Nat.strongRecOn generalizing xs with
  | ind n ih =>
    cases xs with
    | nil => rfl
    | cons x xs =>
      have hlt : (xs.filter fun y => !y == x).length < n := by
        have hle := length_filter_le (fun y => !y == x) xs
        rw [length_cons] at h
        omega
      rw [eraseDups_cons, flatMap_cons, flatMap_cons,
        eraseDups_append_congr rfl (ih _ hlt _ rfl), eraseDups_flatMap_filter (List.Subset.refl _)]

theorem eraseDups_eraseDups (xs : List α) : xs.eraseDups.eraseDups = xs.eraseDups := by
  have h := eraseDups_flatMap_eraseDups (fun x => [x]) xs
  rwa [flatMap_singleton', flatMap_singleton'] at h

end Repetitions

/-! ## Types in normal form -/

variable {t : Ty}

namespace Ty

variable {ms : List Ty}

/-- **A type is in normal form at the top**: it is the union of its alternatives, which are no unions. -/
structure Normal (t : Ty) : Prop where
  joined : union? [t] = some t
  flat : ∀ m ∈ t.alternatives, m.alternatives = [m]

/-- What is not a union is in normal form. -/
theorem normal_of_alternatives (h : t.alternatives = [t]) : t.Normal := by
  refine ⟨?_, fun m hm => ?_⟩
  · simp [union?, h, eraseDups_cons]
  · rw [h] at hm
    rw [mem_singleton.mp hm, h]

theorem IsRigid.alternatives (h : t.IsRigid) : t.alternatives = [t] := by
  cases t with
  | union ms => exact h.elim
  | _ => rfl

/-- A union depends on the alternatives of its members only. -/
theorem union?_congr {ns : List Ty}
    (h : (ms.flatMap alternatives).eraseDups = (ns.flatMap alternatives).eraseDups) : union? ms = union? ns := by
  unfold union?
  rw [h]

/-- The alternatives of a union are those of its members. -/
theorem alternatives_union? (h : union? ms = some t) (hms : ∀ m ∈ ms, m.Normal) :
    t.alternatives = (ms.flatMap alternatives).eraseDups := by
  rcases union?_cases h with he | ⟨u, us, rfl, he⟩
  · obtain ⟨m, hm, ht⟩ := mem_flattened.mp (he ▸ mem_singleton.mpr rfl : t ∈ _)
    rw [he, (hms m hm).flat t ht]
  · rw [he]
    rfl

theorem normal_union? (h : union? ms = some t) (hms : ∀ m ∈ ms, m.Normal) : t.Normal := by
  have halternatives := alternatives_union? h hms
  refine ⟨?_, fun u hu => ?_⟩
  · rw [← h]
    refine union?_congr ?_
    rw [flatMap_singleton, halternatives, eraseDups_eraseDups]
  · rw [halternatives] at hu
    obtain ⟨m, hm, hum⟩ := mem_flattened.mp hu
    exact (hms m hm).flat u hum

/-- Solid types have unions. -/
theorem exists_union? (hne : ms ≠ []) (hms : ∀ m ∈ ms, m.Solid) : ∃ t, union? ms = some t := by
  cases h : union? ms with
  | some t => exact ⟨t, rfl⟩
  | none =>
    obtain ⟨m, hm⟩ := exists_mem_of_ne_nil ms hne
    exact absurd (union?_eq_none_iff.mp h m hm) ((in_solid.mpr (hms m hm)).alternatives_ne_nil not_false)

/-! ## Substitution -/

variable {f : TyVar → Ty}

theorem solid_var (v : TyVar) : (var v).Solid :=
  in_solid.mp (in_var.mpr trivial)

theorem normal_var (v : TyVar) : (var v).Normal :=
  normal_of_alternatives rfl

theorem Solid.child {c : Ty} (h : t.Solid) (hc : c ∈ t.children) : c.Solid :=
  in_solid.mp ((in_solid.mpr h).child hc)

theorem Solid.subst (h : t.Solid) (hf : ∀ v ∈ t.vars, (f v).Solid) : (t.subst f).Solid :=
  in_solid.mp (In.subst (in_solid.mpr h) fun v hv => in_solid.mpr (hf v hv))

/-- The union that substitution makes of the members of another. -/
theorem Solid.union?_map (h : (union ms).Solid) (hf : ∀ v ∈ (union ms).vars, (f v).Solid) :
    union? (ms.map (Ty.subst f)) = some ((union ms).subst f) := by
  have hne : ms.map (Ty.subst f) ≠ [] := by
    intro hnil
    rw [map_eq_nil_iff] at hnil
    exact h (hnil ▸ self_mem_subterms _)
  have hms : ∀ u ∈ ms.map (Ty.subst f), u.Solid := by
    intro u hu
    obtain ⟨m, hm, rfl⟩ := mem_map.mp hu
    exact (h.child hm).subst fun v hv => hf v (mem_vars_of_child (t := union ms) hm hv)
  obtain ⟨u, hu⟩ := exists_union? hne hms
  rw [Ty.subst, substList_eq_map, join, hu, Option.getD_some]

/-- **Substitution leads to normal forms** if the types put in are in normal form. -/
theorem Solid.normal_subst (h : t.Solid) (hf : ∀ v ∈ t.vars, (f v).Solid ∧ (f v).Normal) : (t.subst f).Normal := by
  induction t using rigidly with
  | var v => exact (hf v (by simp)).2
  | rigid t hrigid _ => exact normal_of_alternatives hrigid.subst.alternatives
  | union ms ih =>
    refine normal_union? (h.union?_map fun v hv => (hf v hv).1) fun u hu => ?_
    obtain ⟨m, hm, rfl⟩ := mem_map.mp hu
    exact ih m hm (h.child hm) fun v hv => hf v (mem_vars_of_child (t := union ms) hm hv)

/-- **A map of types that makes of a union the union of what it makes of the members.** -/
structure Distributes (φ : Ty → Ty) : Prop where
  normal : ∀ t, t.Solid → (φ t).Normal
  union : ∀ ms, (union ms).Solid → union? (ms.map φ) = some (φ (union ms))

section Distributes

variable {φ : Ty → Ty} (hφ : Distributes φ)
include hφ

/-- The alternatives afterwards come from the alternatives before. -/
theorem Distributes.alternatives (h : t.Solid) :
    (φ t).alternatives.eraseDups = (t.alternatives.flatMap fun m => (φ m).alternatives).eraseDups := by
  by_cases hunion : t.alternatives = [t]
  · rw [hunion, flatMap_singleton]
  · cases t with
    | union ms =>
      have hmembers : ∀ u ∈ ms.map φ, u.Normal :=
        forall_mem_map.mpr fun m hm => hφ.normal m (h.child hm)
      rw [alternatives_union? (hφ.union ms h) hmembers, eraseDups_eraseDups, flatMap_map]
      rfl
    | _ => exact absurd rfl hunion

/-- It does so of unions in normal form too. -/
theorem Distributes.union?_map (h : union? ms = some t) (hms : ∀ m ∈ ms, m.Solid) : union? (ms.map φ) = some (φ t) := by
  have hsolid : t.Solid := in_solid.mp (In.of_union? trivial (fun m hm => in_solid.mpr (hms m hm)) h)
  have hflat : ((ms.map φ).flatMap Ty.alternatives).eraseDups =
      ((ms.flatMap Ty.alternatives).eraseDups.flatMap fun m => (φ m).alternatives).eraseDups := by
    rw [eraseDups_flatMap_eraseDups, flatMap_map, flatMap_assoc]
    exact eraseDups_flatMap_congr fun m hm => hφ.alternatives (hms m hm)
  rcases union?_cases h with he | ⟨u, us, rfl, he⟩
  · rw [← (hφ.normal t hsolid).joined]
    refine union?_congr ?_
    rw [hflat, he, flatMap_singleton, flatMap_singleton]
  · rw [← hφ.union (u :: us) hsolid]
    refine union?_congr ?_
    rw [hflat, he, flatMap_map]

end Distributes

theorem distributes_subst (hf : ∀ v, (f v).Solid ∧ (f v).Normal) : Distributes (Ty.subst f) :=
  ⟨fun _ ht => ht.normal_subst fun v _ => hf v, fun _ hms => hms.union?_map fun v _ => (hf v).1⟩

/-- The alternatives after a substitution come from the alternatives before it. -/
theorem Solid.alternatives_subst (h : t.Solid) (hf : ∀ v, (f v).Solid ∧ (f v).Normal) :
    (t.subst f).alternatives.eraseDups = (t.alternatives.flatMap fun m => (m.subst f).alternatives).eraseDups :=
  (distributes_subst hf).alternatives h

/-- **Substitution in a union** is the union of what it makes of the members. -/
theorem union?_subst (h : union? ms = some t) (hms : ∀ m ∈ ms, m.Solid) (hf : ∀ v, (f v).Solid ∧ (f v).Normal) :
    union? (ms.map (subst f)) = some (t.subst f) :=
  (distributes_subst hf).union?_map h hms

/-- **Substituting twice is substituting once**, if the types put in last are in normal form. -/
theorem Solid.subst_subst {g : TyVar → Ty} (h : t.Solid) (hf : ∀ v ∈ t.vars, (f v).Solid)
    (hg : ∀ v, (g v).Solid ∧ (g v).Normal) :
    (t.subst f).subst g = t.subst fun v => (f v).subst g := by
  induction t using rigidly with
  | var v => rfl
  | rigid t hrigid ih =>
    exact hrigid.subst_subst fun c hc => ih c hc (h.child hc) fun v hv => hf v (mem_vars_of_child hc hv)
  | union ms ih =>
    have hmember : ∀ m ∈ ms, ∀ v ∈ m.vars, (f v).Solid :=
      fun m hm v hv => hf v (mem_vars_of_child (t := union ms) hm hv)
    have hmembers : ∀ u ∈ ms.map (Ty.subst f), u.Solid := by
      intro u hu
      obtain ⟨m, hm, rfl⟩ := mem_map.mp hu
      exact (h.child hm).subst (hmember m hm)
    have hunion := union?_subst (h.union?_map hf) hmembers hg
    have hcomp : (ms.map (Ty.subst f)).map (Ty.subst g) = ms.map (Ty.subst fun v => (f v).subst g) := by
      rw [map_map]
      exact map_congr_left fun m hm => ih m hm (h.child hm) (hmember m hm)
    rw [hcomp, h.union?_map fun v hv => (hf v hv).subst fun w _ => (hg w).1] at hunion
    exact (Option.some.inj hunion).symm

end Ty

/-! ## Exposure -/

namespace Arena

variable {a b : Arena}

/-- All bindings are solid. -/
def Solid (a : Arena) : Prop :=
  ∀ id t, a.binding? id = some t → t.Solid

theorem Solid.exposeWithin (ha : a.Solid) (hops : Nat) (ht : t.Solid) :
    (a.exposeWithin hops t).Solid ∧ (a.exposeWithin hops t).Normal := by
  induction hops generalizing t with
  | zero =>
    exact ⟨ht.subst fun v _ => solid_var v, ht.normal_subst fun v _ => ⟨solid_var v, normal_var v⟩⟩
  | succ hops ih =>
    have hvalue : ∀ v : TyVar, (a.exposeWithin (hops + 1) (.var v)).Solid ∧
        (a.exposeWithin (hops + 1) (.var v)).Normal := by
      intro v
      simp only [Arena.exposeWithin, subst]
      cases hb : a.binding? v.id with
      | some u => exact ih (ha v.id u hb)
      | none => exact ⟨solid_var v, normal_var v⟩
    exact ⟨ht.subst fun v _ => (hvalue v).1, ht.normal_subst fun v _ => hvalue v⟩

theorem Solid.expose (ha : a.Solid) (ht : t.Solid) : (a.expose t).Solid ∧ (a.expose t).Normal :=
  ha.exposeWithin a.size ht

theorem Solid.value (ha : a.Solid) (hacyclic : a.Acyclic) (v : TyVar) : (a.value v).Solid ∧ (a.value v).Normal := by
  rw [← expose_var hacyclic]
  exact ha.expose (solid_var v)

/-- A substitution that gives variables what it makes of their bindings makes no difference between a type and
    what is seen of it. -/
theorem Solid.subst_exposeWithin (ha : a.Solid) {σ : TyVar → Ty} (hσ : ∀ v, (σ v).Solid ∧ (σ v).Normal)
    (hsolves : ∀ v t, a.binding? v.id = some t → σ v = t.subst σ) (hops : Nat) (ht : t.Solid) :
    (a.exposeWithin hops t).subst σ = t.subst σ := by
  induction hops generalizing t with
  | zero => exact ht.subst_subst (fun v _ => solid_var v) hσ
  | succ hops ih =>
    have hvalue : ∀ v : TyVar, (a.exposeWithin (hops + 1) (.var v)).subst σ = σ v := by
      intro v
      simp only [Arena.exposeWithin, subst]
      cases hb : a.binding? v.id with
      | some u => rw [ih (ha v.id u hb), hsolves v u hb]
      | none => rfl
    have hsolid : ∀ v : TyVar, (a.exposeWithin (hops + 1) (.var v)).Solid :=
      fun v => (ha.exposeWithin _ (solid_var v)).1
    have hcomp : (a.exposeWithin (hops + 1) t).subst σ =
        t.subst fun v => (a.exposeWithin (hops + 1) (.var v)).subst σ := ht.subst_subst (fun v _ => hsolid v) hσ
    rw [hcomp, funext hvalue]

/-- Exposing a type that was exposed before is exposing the type itself, as long as bindings are kept. -/
theorem expose_expose_of_kept (hkept : ∀ id u, a.binding? id = some u → b.binding? id = some u) (ha : a.Solid)
    (hb : b.Solid) (hacyclic : b.Acyclic) (ht : t.Solid) : b.expose (a.expose t) = b.expose t := by
  rw [expose_unfold hacyclic, expose_unfold hacyclic]
  refine ha.subst_exposeWithin (hb.value hacyclic) (fun v u hu => ?_) a.size ht
  rw [value_bound (hkept v.id u hu), expose_unfold hacyclic]

/-- **What was exposed before exposes as the type itself does later.** -/
theorem expose_expose (h : a.Extends b) (ha : a.Solid) (hb : b.Solid) (hacyclic : b.Acyclic) (ht : t.Solid) :
    b.expose (a.expose t) = b.expose t :=
  expose_expose_of_kept (fun _ _ hu => h.binding? hu) ha hb hacyclic ht

/-- **The union of what was exposed before** is later the union of what is exposed then. -/
theorem expose_union? (h : a.Extends b) (ha : a.Solid) (hb : b.Solid) (hacyclic : b.Acyclic)
    {ts : List Ty} (hts : ∀ t ∈ ts, t.Solid) {u : Ty} (hu : union? (ts.map a.expose) = some u) :
    union? (ts.map b.expose) = some (b.expose u) := by
  have hmembers : ∀ m ∈ ts.map a.expose, m.Solid := by
    intro m hm
    obtain ⟨t, ht, rfl⟩ := mem_map.mp hm
    exact (ha.expose (hts t ht)).1
  have hlater := union?_subst hu hmembers (hb.value hacyclic)
  rw [← expose_unfold hacyclic, map_map] at hlater
  rw [← hlater]
  refine congrArg _ (map_congr_left fun t ht => ?_)
  rw [Function.comp_apply, ← expose_unfold hacyclic, expose_expose h ha hb hacyclic (hts t ht)]

end Arena

end UnionTyping
