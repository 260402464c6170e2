import UnionTyping.Proofs.Exposed

/-!
# `Proofs.Unrolling` — unrolling a definition and giving it arguments

A placeholder inside a definition stands for the definition with the placeholder's arguments in the place of its
parameters. A definition can be unrolled and then be given arguments, or be given arguments and then be unrolled. In
the second order the parameters are gone by the time the placeholders are looked at: an instance with closed arguments
has no instance but itself, whatever a placeholder asks for (`Ty.instantiate?_given_self`). So the two orders agree at a
placeholder iff its own arguments become those of the instance (`Ty.unroll_placeholder_iff`). Placeholders of *uniform*
recursion repeat the parameters, as in lists, and always do so; those of nested recursion do not.

Agreement at the placeholders is agreement everywhere (`Ty.unrollNamed_subst`), for both unrolling and substitution
make of a union the union of what they make of its members. Conversely one placeholder that is not uniform is enough
for the two results to differ (`Ty.arguments_of_commutes`), even where options contain sums of the same name.
-/

namespace UnionTyping

open List Ty

namespace Ty

/-! ## Placeholders -/

variable {as : List Ty} {c t : Ty} {n : String}

mutual
/-- The arguments of the placeholders that unrolling replaces: not those inside a nested type of the name. -/
def placeholders (name : String) : Ty → List (List Ty)
  | .simple _ => []
  | .func a r => placeholders name a ++ placeholders name r
  | .record n args fields =>
      if n = name then [] else placeholdersList name args ++ placeholdersFields name fields
  | .algebraic n args options =>
      if n = name then [] else placeholdersList name args ++ placeholdersList name options
  | .recursive n args => if n = name then [args] else placeholdersList name args
  | .union members => placeholdersList name members
  | .var _ => []

/-- Those of a list of types. -/
def placeholdersList (name : String) : List Ty → List (List Ty)
  | [] => []
  | t :: ts => placeholders name t ++ placeholdersList name ts

/-- Those of a list of fields. -/
def placeholdersFields (name : String) : List (String × Ty) → List (List Ty)
  | [] => []
  | (_, t) :: fs => placeholders name t ++ placeholdersFields name fs
end

theorem placeholdersList_eq_flatMap (ts : List Ty) : placeholdersList n ts = ts.flatMap (placeholders n) := by
  induction ts with
  | nil => rfl
  | cons t ts ih => rw [placeholdersList, ih, flatMap_cons]

theorem placeholdersFields_eq_flatMap (fs : List (String × Ty)) :
    placeholdersFields n fs = (fs.map Prod.snd).flatMap (placeholders n) := by
  induction fs with
  | nil => rfl
  | cons e fs ih => rw [placeholdersFields, ih, map_cons, flatMap_cons]

theorem placeholders_recursive (as : List Ty) : (recursive n as).placeholders n = [as] := by
  rw [placeholders, if_pos rfl]

/-- Types of another name are passed through. -/
theorem placeholders_eq_flatMap (h : t.name? ≠ some n) : t.placeholders n = t.children.flatMap (placeholders n) := by
  have hne : ∀ {m : String}, some m ≠ some n → m ≠ n := fun h hm => h (hm ▸ rfl)
  cases t with
  | simple m => rfl
  | func a r => simp [placeholders, children]
  | record m as fs =>
    rw [placeholders, if_neg (hne h), placeholdersList_eq_flatMap, placeholdersFields_eq_flatMap, children,
      flatMap_append]
  | algebraic m as os =>
    rw [placeholders, if_neg (hne h), placeholdersList_eq_flatMap, placeholdersList_eq_flatMap, children,
      flatMap_append]
  | recursive m as => rw [placeholders, if_neg (hne h), placeholdersList_eq_flatMap, children]
  | union ms => rw [placeholders, placeholdersList_eq_flatMap, children]
  | var v => rfl

theorem mem_placeholders_of_child (h : t.name? ≠ some n) (hc : c ∈ t.children) (has : as ∈ c.placeholders n) :
    as ∈ t.placeholders n := by
  rw [placeholders_eq_flatMap h]
  exact mem_flatMap.mpr ⟨c, hc, has⟩

/-! ## Unrolling -/

variable {owner u : Ty} {f : TyVar → Ty}

theorem Shadows.placeholders (h : t.Shadows n) : t.placeholders n = [] := by
  cases t with
  | simple m => rfl
  | record m as fs =>
    rw [placeholders]
    exact if_pos h
  | algebraic m as os =>
    rw [placeholders]
    exact if_pos h
  | _ => exact h.elim

theorem Shadows.subst (h : t.Shadows n) : (t.subst f).Shadows n := by
  cases t with
  | union ms => exact h.elim
  | var v => exact h.elim
  | _ => exact h

/-- What passes from types to their children holds of the placeholders in a type. -/
theorem of_mem_placeholders {P : Ty → Prop} (hP : ∀ t c, c ∈ t.children → P t → P c) (has : as ∈ t.placeholders n)
    (h : P t) : P (recursive n as) := by
  induction t using unrolling n with
  | var v => cases has
  | union ms ih =>
    rw [placeholders_eq_flatMap (by simp [name?])] at has
    obtain ⟨m, hm, has⟩ := mem_flatMap.mp has
    exact ih m hm has (hP _ m hm h)
  | placeholder bs =>
    rw [placeholders_recursive, mem_singleton] at has
    exact has ▸ h
  | shadow t hshadow =>
    rw [hshadow.placeholders] at has
    cases has
  | other t _ hname ih =>
    rw [placeholders_eq_flatMap hname] at has
    obtain ⟨c, hc, has⟩ := mem_flatMap.mp has
    exact ih c hc has (hP t c hc h)

/-- **Where there is nothing to replace** a type in normal form is left as it is. -/
theorem Proper.unrollNamed (ht : t.Proper) (h : t.placeholders n = []) : unrollNamed n owner t = t := by
  induction t using unrolling n with
  | var v => rfl
  | union ms ih =>
    rw [placeholders_eq_flatMap (by simp [name?]), flatMap_eq_nil_iff] at h
    rw [unrollNamed_union, map_congr_left fun m hm => ih m hm (ht.child hm) (h m hm), map_id', ht.join]
  | placeholder as =>
    rw [placeholders_recursive] at h
    cases h
  | shadow t hshadow => exact hshadow.unrollNamed
  | other t hrigid hname ih =>
    rw [placeholders_eq_flatMap hname, flatMap_eq_nil_iff] at h
    rw [hrigid.unrollNamed hname]
    exact mapChildren_of_forall_eq fun c hc => ih c hc (ht.child hc) (h c hc)

theorem IsRigid.instantiate? (h : owner.IsRigid) (hu : owner.instantiate? as = some u) : u.IsRigid := by
  unfold Ty.instantiate? at hu
  split at hu
  · cases hu
    split
    · exact h
    · exact h.subst
  · cases hu

theorem IsRigid.unrollNamed_recursive (h : owner.IsRigid) (as : List Ty) :
    (Ty.unrollNamed n owner (recursive n as)).IsRigid := by
  rw [Ty.unrollNamed_recursive]
  cases hu : owner.instantiate? as with
  | some u => exact h.instantiate? hu
  | none => exact trivial

theorem Solid.unrollNamed (ho : owner.Solid) (ht : t.Solid) : (unrollNamed n owner t).Solid :=
  in_solid.mp (In.unrollNamed (in_solid.mpr ho) (in_solid.mpr ht))

/-- **Unrolling makes of a union the union of what it makes of the members.** -/
theorem distributes_unrollNamed (hrigid : owner.IsRigid) (ho : owner.Solid) : Distributes (unrollNamed n owner) := by
  have hunion : ∀ ms, (union ms).Solid →
      union? (ms.map (unrollNamed n owner)) = some (unrollNamed n owner (union ms)) := by
    intro ms hms
    have hne : ms.map (unrollNamed n owner) ≠ [] := by
      intro hnil
      exact hms (map_eq_nil_iff.mp hnil ▸ self_mem_subterms _)
    obtain ⟨u, hu⟩ := exists_union? hne (forall_mem_map.mpr fun m hm => ho.unrollNamed (hms.child hm))
    rw [unrollNamed_union, join, hu, Option.getD_some]
  refine ⟨fun t ht => ?_, hunion⟩
  induction t using unrolling n with
  | var v => exact normal_var v
  | union ms ih => exact normal_union? (hunion ms ht) (forall_mem_map.mpr fun m hm => ih m hm (ht.child hm))
  | placeholder as => exact normal_of_alternatives (hrigid.unrollNamed_recursive as).alternatives
  | shadow t hshadow =>
    rw [hshadow.unrollNamed]
    exact normal_of_alternatives hshadow.isRigid.alternatives
  | other t hrigid hname _ =>
    rw [hrigid.unrollNamed hname]
    exact normal_of_alternatives (hrigid.mapChildren _).alternatives

theorem name?_subst (h : t.IsRigid) : (t.subst f).name? = t.name? := by
  cases t with
  | union ms => exact h.elim
  | var v => exact h.elim
  | _ => rfl

/-- **Unrolling commutes with substitution** if it does at the placeholders, and leaves the types put in alone. -/
theorem unrollNamed_subst (hrigid : owner.IsRigid) (ho : owner.Solid) (hf : ∀ v, (f v).Solid ∧ (f v).Normal)
    (hfixed : ∀ v ∈ t.vars, unrollNamed n (owner.subst f) (f v) = f v) (ht : t.Solid)
    (h : ∀ as ∈ t.placeholders n, unrollNamed n (owner.subst f) ((recursive n as).subst f) =
      (unrollNamed n owner (recursive n as)).subst f) :
    unrollNamed n (owner.subst f) (t.subst f) = (unrollNamed n owner t).subst f := by
  induction t using unrolling n with
  | var v => exact hfixed v (by simp)
  | placeholder as =>
    rw [placeholders_recursive] at h
    exact h as (mem_singleton.mpr rfl)
  | shadow t hshadow => rw [hshadow.unrollNamed, hshadow.subst.unrollNamed]
  | other t hrigid hname ih =>
    have hname' : (t.subst f).name? ≠ some n := by
      rwa [name?_subst hrigid]
    rw [hrigid.subst.unrollNamed hname', hrigid.unrollNamed hname, hrigid.subst_eq, (hrigid.mapChildren _).subst_eq,
      mapChildren_mapChildren, mapChildren_mapChildren]
    refine mapChildren_congr fun c hc => ih c hc (fun v hv => hfixed v (mem_vars_of_child hc hv)) (ht.child hc) ?_
    exact fun as has => h as (mem_placeholders_of_child hname hc has)
  | union ms ih =>
    have hmembers : (ms.map (subst f)).map (unrollNamed n (owner.subst f)) =
        (ms.map (unrollNamed n owner)).map (subst f) := by
      rw [map_map, map_map]
      refine map_congr_left fun m hm => ih m hm (fun v hv => ?_) (ht.child hm) fun as has => h as ?_
      · exact hfixed v (mem_vars_of_child (t := union ms) hm hv)
      · exact mem_placeholders_of_child (t := union ms) (by simp [name?]) hm has
    have hleft := (distributes_unrollNamed (n := n) hrigid.subst (ho.subst fun v _ => (hf v).1)).union?_map
      (ht.union?_map fun v _ => (hf v).1)
      (forall_mem_map.mpr fun m hm => (ht.child hm).subst fun v _ => (hf v).1)
    have hright := union?_subst ((distributes_unrollNamed (n := n) hrigid ho).union ms ht)
      (forall_mem_map.mpr fun m hm => ho.unrollNamed (n := n) (ht.child hm)) hf
    rw [hmembers, hright] at hleft
    exact (Option.some.inj hleft).symm

/-! ## Arguments for parameters -/

/-- What a variable stands for where parameters are given arguments. -/
def given (params : List TyVar) (args : List Ty) (v : TyVar) : Ty :=
  ((parameters (params.map .var) args).get? v.id).getD (.var v)

section Parameters

variable {params : List TyVar} {args : List Ty} {v : TyVar}

theorem parameters_vars : parameters (params.map .var) args = (params.zip args).map fun e => (e.1.id, e.2) := by
  rw [parameters, zip_map_left, filterMap_map, ← filterMap_eq_map]
  rfl

theorem given_of_notMem (hv : v.id ∉ params.map TyVar.id) : given params args v = .var v := by
  cases hget : (parameters (params.map .var) args).get? v.id with
  | none => rw [given, hget, Option.getD_none]
  | some t =>
    have hmem := mem_of_get? hget
    rw [parameters_vars] at hmem
    obtain ⟨e, he, heq⟩ := mem_map.mp hmem
    injection heq with hid _
    exact absurd (mem_map.mpr ⟨e.1, (of_mem_zip he).1, hid⟩) hv

/-- A parameter is given the argument in its place. -/
theorem exists_given (hlength : params.length = args.length) (hv : v.id ∈ params.map TyVar.id) :
    ∃ p, p.id = v.id ∧ (p, given params args v) ∈ params.zip args := by
  obtain ⟨p, hp, hid⟩ := mem_map.mp hv
  have hlength' : (params.map var).length = args.length := by
    rwa [length_map]
  obtain ⟨t, hget⟩ := exists_argument hlength' (mem_map_of_mem hp)
  rw [hid] at hget
  have hmem := mem_of_get? hget
  rw [parameters_vars] at hmem
  obtain ⟨e, he, heq⟩ := mem_map.mp hmem
  injection heq with hid' ht
  refine ⟨e.1, hid', ?_⟩
  rw [given, hget, Option.getD_some, ← ht]
  exact he

theorem given_eq (hdistinct : (params.map TyVar.id).Nodup) (hlength : params.length = args.length) {p : TyVar}
    (h : (p, t) ∈ params.zip args) (hid : p.id = v.id) : given params args v = t := by
  obtain ⟨q, hq, hgiven⟩ := exists_given hlength (mem_map.mpr ⟨p, (of_mem_zip h).1, hid⟩)
  have hkeys : ((params.zip args).map (TyVar.id ∘ Prod.fst)).Nodup := by
    rw [← map_map, map_fst_zip (Nat.le_of_eq hlength)]
    exact hdistinct
  exact congrArg Prod.snd (inj_on_of_nodup_map hkeys hgiven h (hq.trans hid.symm))

theorem map_given (hdistinct : (params.map TyVar.id).Nodup) (hlength : params.length = args.length) :
    params.map (given params args) = args := by
  calc params.map (given params args)
      = ((params.zip args).map Prod.fst).map (given params args) := by rw [map_fst_zip (Nat.le_of_eq hlength)]
    _ = (params.zip args).map Prod.snd := by
        rw [map_map]
        exact map_congr_left fun e he => given_eq hdistinct hlength he rfl
    _ = args := map_snd_zip (Nat.le_of_eq hlength.symm)

/-- Arguments can be changed before they are given, or after. -/
theorem given_map (hdistinct : (params.map TyVar.id).Nodup) (hlength : params.length = args.length) (g : Ty → Ty)
    (hv : v.id ∈ params.map TyVar.id) : given params (args.map g) v = g (given params args v) := by
  obtain ⟨p, hid, hp⟩ := exists_given hlength hv
  refine given_eq hdistinct (by rwa [length_map]) (p := p) ?_ hid
  rw [zip_map_right]
  exact mem_map_of_mem hp

/-- What holds of the arguments and of variables holds of what is given. -/
theorem given_cases {P : Ty → Prop} (hlength : params.length = args.length) (hargs : ∀ t ∈ args, P t)
    (hvar : P (.var v)) : P (given params args v) := by
  by_cases hv : v.id ∈ params.map TyVar.id
  · obtain ⟨p, -, hp⟩ := exists_given hlength hv
    exact hargs _ (of_mem_zip hp).2
  · rw [given_of_notMem hv]
    exact hvar

end Parameters

/-! ## Parts of what substitution and unrolling make -/

theorem mem_subterms_alternatives (hu : u.IsRigid) : (∃ m ∈ t.alternatives, u ∈ m.subterms) ↔ u ∈ t.subterms := by
  cases t with
  | union ms =>
    rw [mem_subterms_iff]
    refine ⟨Or.inr, fun h => h.resolve_left ?_⟩
    rintro rfl
    exact hu
  | _ => simp [alternatives]

/-- The parts of a union in normal form are those of its members, unions aside. -/
theorem mem_subterms_join (hu : u.IsRigid) {ms : List Ty} : u ∈ (join ms).subterms ↔ ∃ m ∈ ms, u ∈ m.subterms := by
  have hunion : ∀ ms, u ∈ (union ms).subterms ↔ ∃ m ∈ ms, u ∈ m.subterms :=
    fun ms => (mem_subterms_alternatives (t := union ms) hu).symm
  unfold join
  cases h : union? ms with
  | none => exact hunion ms
  | some t =>
    have hflat : u ∈ t.subterms ↔ ∃ m ∈ (ms.flatMap alternatives).eraseDups, u ∈ m.subterms := by
      rcases union?_cases h with he | ⟨x, xs, rfl, he⟩
      · simp [he]
      · rw [he]
        exact hunion (x :: xs)
    rw [Option.getD_some, hflat]
    constructor
    · rintro ⟨x, hx, hux⟩
      obtain ⟨m, hm, hxm⟩ := mem_flattened.mp hx
      exact ⟨m, hm, (mem_subterms_alternatives hu).mp ⟨x, hxm, hux⟩⟩
    · rintro ⟨m, hm, hum⟩
      obtain ⟨x, hxm, hux⟩ := (mem_subterms_alternatives hu).mpr hum
      exact ⟨x, mem_flattened.mpr ⟨m, hm, hxm⟩, hux⟩

theorem mem_subterms_subst (hu : u.IsRigid) (h : u ∈ t.subterms) : u.subst f ∈ (t.subst f).subterms := by
  induction t using rigidly with
  | var v =>
    rw [mem_singleton.mp h] at hu
    exact hu.elim
  | union ms ih =>
    rw [subst, substList_eq_map, mem_subterms_join hu.subst]
    obtain ⟨m, hm, hum⟩ := (mem_subterms_alternatives hu).mpr h
    exact ⟨m.subst f, mem_map_of_mem hm, ih m hm hum⟩
  | rigid t ht ih =>
    rcases mem_subterms_iff.mp h with rfl | ⟨c, hc, huc⟩
    · exact self_mem_subterms _
    · refine mem_subterms_iff.mpr (Or.inr ⟨c.subst f, ?_, ih c hc huc⟩)
      rw [children_subst ht]
      exact mem_map_of_mem hc

/-- **A part after a substitution** was a part before it, or is one of the types put in. -/
theorem subterm_of_subst (hu : u.IsRigid) (h : u ∈ (t.subst f).subterms) :
    (∃ d ∈ t.subterms, d.IsRigid ∧ d.subst f = u) ∨ ∃ v ∈ t.vars, u ∈ (f v).subterms := by
  induction t using rigidly with
  | var v => exact Or.inr ⟨v, by simp, h⟩
  | union ms ih =>
    rw [subst, substList_eq_map, mem_subterms_join hu] at h
    obtain ⟨m', hm', hum⟩ := h
    obtain ⟨m, hm, rfl⟩ := mem_map.mp hm'
    rcases ih m hm hum with ⟨d, hd, hrigid, heq⟩ | ⟨v, hv, huv⟩
    · exact Or.inl ⟨d, mem_subterms_iff.mpr (Or.inr ⟨m, hm, hd⟩), hrigid, heq⟩
    · exact Or.inr ⟨v, mem_vars_of_child (t := union ms) hm hv, huv⟩
  | rigid t ht ih =>
    rcases mem_subterms_iff.mp h with rfl | ⟨c', hc', huc⟩
    · exact Or.inl ⟨t, self_mem_subterms t, ht, rfl⟩
    · rw [children_subst ht] at hc'
      obtain ⟨c, hc, rfl⟩ := mem_map.mp hc'
      rcases ih c hc huc with ⟨d, hd, hrigid, heq⟩ | ⟨v, hv, huv⟩
      · exact Or.inl ⟨d, mem_subterms_iff.mpr (Or.inr ⟨c, hc, hd⟩), hrigid, heq⟩
      · exact Or.inr ⟨v, mem_vars_of_child hc hv, huv⟩

/-- What a placeholder is replaced by is part of the unrolled type. -/
theorem mem_subterms_unrollNamed (hu : u.IsRigid) (has : as ∈ t.placeholders n)
    (h : u ∈ (unrollNamed n owner (recursive n as)).subterms) : u ∈ (unrollNamed n owner t).subterms := by
  induction t using unrolling n with
  | var v => cases has
  | union ms ih =>
    rw [placeholders_eq_flatMap (by simp [name?])] at has
    obtain ⟨m, hm, has⟩ := mem_flatMap.mp has
    rw [unrollNamed_union, mem_subterms_join hu]
    exact ⟨_, mem_map_of_mem hm, ih m hm has⟩
  | placeholder bs =>
    rw [placeholders_recursive, mem_singleton] at has
    exact has ▸ h
  | shadow t hshadow =>
    rw [hshadow.placeholders] at has
    cases has
  | other t ht hname ih =>
    rw [placeholders_eq_flatMap hname] at has
    obtain ⟨c, hc, has⟩ := mem_flatMap.mp has
    rw [ht.unrollNamed hname, mem_subterms_iff, children_mapChildren]
    exact Or.inr ⟨_, mem_map_of_mem hc, ih c hc has⟩

/-- A sum of that name. -/
def IsSum (n : String) : Ty → Prop
  | .algebraic m _ _ => m = n
  | _ => False

theorem IsSum.isRigid (h : t.IsSum n) : t.IsRigid := by
  cases t with
  | algebraic m as os => exact trivial
  | _ => exact h.elim

theorem isSum_subst (h : t.IsRigid) : (t.subst f).IsSum n ↔ t.IsSum n := by
  cases t with
  | var v => exact h.elim
  | union ms => exact h.elim
  | _ => exact Iff.rfl

/-- **A sum of the name in an unrolled type** was there before, or is in an instance of the owner. -/
theorem sum_of_unrollNamed (hu : u.IsSum n) (h : u ∈ (unrollNamed n owner t).subterms) :
    u ∈ t.subterms ∨ ∃ as v, owner.instantiate? as = some v ∧ u ∈ v.subterms := by
  induction t using unrolling n with
  | var v => exact Or.inl h
  | union ms ih =>
    rw [unrollNamed_union, mem_subterms_join hu.isRigid] at h
    obtain ⟨m', hm', hum⟩ := h
    obtain ⟨m, hm, rfl⟩ := mem_map.mp hm'
    exact (ih m hm hum).imp_left fun hum => mem_subterms_iff.mpr (Or.inr ⟨m, hm, hum⟩)
  | placeholder as =>
    rw [unrollNamed_recursive] at h
    cases hv : owner.instantiate? as with
    | some v =>
      rw [hv] at h
      exact Or.inr ⟨as, v, hv, h⟩
    | none =>
      rw [hv] at h
      exact Or.inl h
  | shadow t hshadow =>
    rw [hshadow.unrollNamed] at h
    exact Or.inl h
  | other t ht hname ih =>
    rw [ht.unrollNamed hname, mem_subterms_iff, children_mapChildren] at h
    rcases h with rfl | ⟨c', hc', huc⟩
    · -- the type itself has another name
      cases t with
      | algebraic m as os => exact absurd (congrArg some hu) hname
      | _ => exact hu.elim
    · obtain ⟨c, hc, rfl⟩ := mem_map.mp hc'
      exact (ih c hc huc).imp_left fun huc => mem_subterms_iff.mpr (Or.inr ⟨c, hc, huc⟩)

theorem child_of_subst_eq {g : TyVar → Ty} {d : Ty} (hd : d.IsRigid) (ht : t.IsRigid) (heq : d.subst g = t.subst f)
    (hc : c ∈ t.children) : ∃ e ∈ d.children, e.subst g = c.subst f := by
  have hchild : c.subst f ∈ (d.subst g).children := by
    rw [heq, children_subst ht]
    exact mem_map_of_mem hc
  rw [children_subst hd] at hchild
  exact mem_map.mp hchild

/-- **A sum does not contain itself** with other types put in, if those that it has now contain no sum of the name:
    it would again contain a sum that contains itself in this way, and so on. -/
theorem IsSum.not_nested {g : TyVar → Ty} (hg : ∀ v, ∀ u ∈ (g v).subterms, ¬u.IsSum n) (ht : t.IsSum n)
    (hc : c ∈ t.children) : t.subst f ∉ (c.subst g).subterms := by
  suffices h : ∀ s : Ty, ∀ t ∈ s.subterms, t.IsSum n → ∀ c ∈ t.children, t.subst f ∉ (c.subst g).subterms from
    h t t (self_mem_subterms t) ht c hc
  intro s
  induction s using childwise with
  | step s ih =>
    intro t hts ht c hc hmem
    rcases mem_subterms_iff.mp hts with rfl | ⟨d, hd, htd⟩
    · have hsum : (t.subst f).IsSum n := (isSum_subst ht.isRigid).mpr ht
      rcases subterm_of_subst hsum.isRigid hmem with ⟨d, hd, hrigid, heq⟩ | ⟨v, -, hv⟩
      · have hdsum : d.IsSum n := by
          rw [← isSum_subst hrigid, heq]
          exact hsum
        -- `d` inside `t` with the one substitution is `t` with the other
        obtain ⟨e, he, hce⟩ := child_of_subst_eq hrigid ht.isRigid heq hc
        exact ih c hc d hd hdsum e he (hce ▸ mem_subterms_subst hrigid hd)
      · exact hg v _ hv hsum
    · exact ih d hd t htd ht c hc hmem

/-! ## Definitions with parameters -/

/-- A sum as a definition: its arguments are its parameters. -/
def generic (n : String) (params : List TyVar) (options : List Ty) : Ty :=
  .algebraic n (params.map .var) options

/-- **What can be an argument of a definition of that name**: closed types without placeholders or definitions of the
    name. -/
structure Neutral (n : String) (t : Ty) : Prop where
  solid : t.Solid
  closed : t.vars = []
  foreign : ∀ u ∈ t.subterms, u.name? = some n → u = simple n

theorem Neutral.placeholders (h : t.Neutral n) : t.placeholders n = [] := by
  refine eq_nil_iff_forall_not_mem.mpr fun as has => ?_
  have hforeign : ∀ u ∈ (recursive n as).subterms, u.name? = some n → u = simple n := by
    refine of_mem_placeholders (P := fun t => ∀ u ∈ t.subterms, u.name? = some n → u = simple n) ?_ has h.foreign
    exact fun t c hc ht => (forall_subterms_iff.mp ht).2 c hc
  cases hforeign _ (self_mem_subterms _) rfl

theorem Neutral.not_sum (h : t.Neutral n) (hu : u ∈ t.subterms) : ¬u.IsSum n := by
  intro hsum
  cases u with
  | algebraic m as os => cases h.foreign _ hu (congrArg some hsum)
  | _ => exact hsum

theorem Proper.normal (h : t.Proper) : t.Normal := by
  rw [← h.subst_var]
  exact h.solid.normal_subst fun v _ => ⟨solid_var v, normal_var v⟩

theorem exists_instantiate? (h : t.arguments.length = as.length) : ∃ u, t.instantiate? as = some u :=
  ⟨_, if_pos h⟩

theorem exists_instantiate?_generic {params : List TyVar} (os : List Ty) (h : as.length = params.length) :
    ∃ u, (generic n params os).instantiate? as = some u := by
  refine exists_instantiate? ?_
  rw [generic, arguments, length_map, h]

/-- **Once its arguments are closed a definition has only one instance**, itself. -/
theorem Proper.instantiate? (h : t.Proper) (hclosed : ∀ x ∈ t.arguments, x.vars = [])
    (hu : t.instantiate? as = some u) : u = t := by
  unfold Ty.instantiate? at hu
  split at hu
  · cases hu
    split
    · rfl
    · have hnone : parameters t.arguments as = [] := by
        refine eq_nil_iff_forall_not_mem.mpr fun e he => ?_
        obtain ⟨⟨x, y⟩, hxy, hsome⟩ := mem_filterMap.mp he
        have hx := hclosed x (of_mem_zip hxy).1
        cases x with
        | var v => cases hx
        | _ => cases hsome
      rw [assign, hnone]
      exact h.subst_var
  · cases hu

section Definition

variable {o : Ty} {params : List TyVar} {args os : List Ty} (hdistinct : (params.map TyVar.id).Nodup)
include hdistinct

theorem subst_generic (hlength : params.length = args.length) :
    (generic n params os).subst (given params args) = .algebraic n args (os.map (subst (given params args))) := by
  rw [generic, subst, substList_eq_map, substList_eq_map, map_map]
  exact congrArg (algebraic n · _) (map_given hdistinct hlength)

/-- **Giving an instance arguments** is giving the definition the arguments with these put in. -/
theorem instantiate?_given (hlength : params.length = args.length) (ho : (generic n params os).Solid)
    (has : ∀ x ∈ as, x.Solid) (hargs : ∀ x ∈ args, x.Solid ∧ x.Normal)
    (hu : (generic n params os).instantiate? as = some u) : u.subst (given params args) =
      (generic n params os).subst (given params (as.map (subst (given params args)))) := by
  unfold instantiate? at hu
  split at hu
  · rename_i has_length
    have hlength' : params.length = as.length := by
      rwa [generic, arguments, length_map] at has_length
    cases hu
    split
    · rename_i hsame
      have hargs' : as.map (subst (given params args)) = args := by
        rw [← hsame, generic, arguments, map_map]
        exact map_given hdistinct hlength
      rw [hargs']
    · show ((generic n params os).subst (given params as)).subst (given params args) = _
      rw [ho.subst_subst (fun v _ => given_cases hlength' has (solid_var v))
        fun v => given_cases hlength hargs ⟨solid_var v, normal_var v⟩]
      refine subst_congr fun v _ => ?_
      by_cases hv : v.id ∈ params.map TyVar.id
      · rw [given_map hdistinct hlength' _ hv]
      · rw [given_of_notMem hv, given_of_notMem hv, subst, given_of_notMem hv]
  · cases hu

variable (hlength : params.length = args.length) (ho : (generic n params os).Solid)
  (hargs : ∀ x ∈ args, x.Neutral n ∧ x.Proper)
include hlength ho hargs

omit hdistinct ho in
theorem solid_given (v : TyVar) : (given params args v).Solid ∧ (given params args v).Normal :=
  given_cases (P := fun t => t.Solid ∧ t.Normal) hlength
    (fun x hx => ⟨(hargs x hx).1.solid, (hargs x hx).2.normal⟩) ⟨solid_var v, normal_var v⟩

/-- The definition with its arguments, which are closed, has no other instance. -/
theorem instantiate?_given_self (hu : ((generic n params os).subst (given params args)).instantiate? as = some u) :
    u = (generic n params os).subst (given params args) := by
  have hproper : ((generic n params os).subst (given params args)).Proper :=
    ho.proper_subst fun v _ => given_cases (P := fun t => t.Solid ∧ t.Proper) hlength
      (fun x hx => ⟨(hargs x hx).1.solid, (hargs x hx).2⟩) ⟨solid_var v, proper_var v⟩
  refine hproper.instantiate? (fun x hx => ?_) hu
  rw [subst_generic hdistinct hlength] at hx
  exact (hargs x hx).1.closed

/-- **Unrolling commutes with giving arguments at a placeholder** iff the placeholder's own arguments become those that
    are given: the instance is not instantiated any more, whatever stands in the placeholder. -/
theorem unroll_placeholder_iff (has : ∀ x ∈ as, x.Solid) :
    unrollNamed n ((generic n params os).subst (given params args)) ((recursive n as).subst (given params args)) =
        (unrollNamed n (generic n params os) (recursive n as)).subst (given params args) ↔
      (as.length = params.length → as.map (subst (given params args)) = args) := by
  rw [subst, substList_eq_map, unrollNamed_recursive, unrollNamed_recursive]
  by_cases hcount : as.length = params.length
  · obtain ⟨u, hu⟩ := exists_instantiate?_generic (n := n) os hcount
    have hcount' : ((generic n params os).subst (given params args)).arguments.length =
        (as.map (subst (given params args))).length := by
      rw [subst_generic hdistinct hlength, length_map, hcount, hlength, arguments]
    obtain ⟨u', hu'⟩ := exists_instantiate? hcount'
    have hgiven := instantiate?_given hdistinct hlength ho has
      (fun x hx => ⟨(hargs x hx).1.solid, (hargs x hx).2.normal⟩) hu
    rw [hu, hu', Option.getD_some, Option.getD_some, hgiven, instantiate?_given_self hdistinct hlength ho hargs hu']
    constructor
    · intro heq _
      have hlength' : params.length = (as.map (subst (given params args))).length := by
        rw [length_map, hcount]
      rw [subst_generic hdistinct hlength, subst_generic hdistinct hlength'] at heq
      injection heq with _ heq _
      exact heq.symm
    · intro heq
      rw [heq hcount]
  · have hnone : (generic n params os).instantiate? as = none := by
      rw [instantiate?, if_neg (by simpa [generic, arguments, eq_comm] using hcount)]
    have hnone' : ((generic n params os).subst (given params args)).instantiate?
        (as.map (subst (given params args))) = none := by
      rw [instantiate?, subst_generic hdistinct hlength, length_map, arguments, ← hlength, if_neg (Ne.symm hcount)]
    rw [hnone, hnone', Option.getD_none, Option.getD_none, subst, substList_eq_map]
    exact iff_of_true rfl fun h => absurd h hcount

omit hdistinct ho in
theorem given_not_sum (v : TyVar) : ∀ x ∈ (given params args v).subterms, ¬x.IsSum n := by
  refine given_cases (P := fun t => ∀ x ∈ t.subterms, ¬x.IsSum n) hlength
    (fun y hy x hx => (hargs y hy).1.not_sum hx) fun x hx => ?_
  rw [mem_singleton.mp hx]
  exact id

omit hdistinct ho in
/-- **No instance is part of an option that was given arguments**: it would have been a sum of the same name before, and
    that sum would be nested in itself. -/
theorem instance_not_part (hmem : o ∈ os) (bs : List Ty) :
    (generic n params os).subst (given params bs) ∉ (o.subst (given params args)).subterms := by
  intro hpart
  have hsum : ((generic n params os).subst (given params bs)).IsSum n := rfl
  rcases subterm_of_subst hsum.isRigid hpart with ⟨d, hd, hrigid, heq⟩ | ⟨v, -, hv⟩
  · have hdsum : d.IsSum n := by
      rw [← isSum_subst hrigid, heq]
      exact hsum
    have hgeneric : (generic n params os).IsRigid := trivial
    have hoption : o ∈ (generic n params os).children := mem_append_right _ hmem
    obtain ⟨e, he, hoe⟩ := child_of_subst_eq hrigid hgeneric heq hoption
    exact hdsum.not_nested (given_not_sum hlength hargs) he (hoe ▸ mem_subterms_subst hrigid hd)
  · exact given_not_sum hlength hargs v _ hv hsum

/-- **An option that commutes has no other placeholders**: what such a one is replaced by would be a part of the
    unrolled option, and there is no instance in it but the one that placeholders are replaced by. -/
theorem arguments_of_commutes (hmem : o ∈ os)
    (h : unrollNamed n ((generic n params os).subst (given params args)) (o.subst (given params args)) =
      (unrollNamed n (generic n params os) o).subst (given params args))
    (has : as ∈ o.placeholders n) (hsolid : ∀ x ∈ as, x.Solid) (hcount : as.length = params.length) :
    as.map (subst (given params args)) = args := by
  have hlength' : params.length = (as.map (subst (given params args))).length := by
    rw [length_map, hcount]
  obtain ⟨u, hu⟩ := exists_instantiate?_generic (n := n) os hcount
  have hgiven := instantiate?_given hdistinct hlength ho hsolid
    (fun x hx => ⟨(hargs x hx).1.solid, (hargs x hx).2.normal⟩) hu
  generalize as.map (subst (given params args)) = bs at hlength' hgiven ⊢
  have hsum : ((generic n params os).subst (given params bs)).IsSum n := rfl
  have hpart : (generic n params os).subst (given params bs) ∈
      (unrollNamed n ((generic n params os).subst (given params args)) (o.subst (given params args))).subterms := by
    have hgeneric : (generic n params os).IsRigid := trivial
    have hrigid : u.IsRigid := hgeneric.instantiate? hu
    rw [h, ← hgiven]
    refine mem_subterms_subst hrigid (mem_subterms_unrollNamed hrigid has ?_)
    rw [unrollNamed_recursive, hu]
    exact self_mem_subterms u
  rcases sum_of_unrollNamed hsum hpart with hpart | ⟨cs, v, hv, hpart⟩
  · exact absurd hpart (instance_not_part hlength hargs hmem bs)
  rw [instantiate?_given_self hdistinct hlength ho hargs hv, mem_subterms_iff] at hpart
  rcases hpart with heq | ⟨c, hc, hpart⟩
  · rw [subst_generic hdistinct hlength, subst_generic hdistinct hlength'] at heq
    injection heq with _ heq _
  rw [subst_generic hdistinct hlength] at hc
  rcases mem_append.mp hc with hc | hc
  · exact absurd hsum ((hargs c hc).1.not_sum hpart)
  · obtain ⟨o', ho', rfl⟩ := mem_map.mp hc
    exact absurd hpart (instance_not_part hlength hargs ho' bs)

/-- **Unrolling an option commutes with giving arguments** iff it does at every placeholder in it. -/
theorem unroll_option_iff (hmem : o ∈ os) :
    unrollNamed n ((generic n params os).subst (given params args)) (o.subst (given params args)) =
        (unrollNamed n (generic n params os) o).subst (given params args) ↔
      ∀ as ∈ o.placeholders n, as.length = params.length → as.map (subst (given params args)) = args := by
  have hsolid : o.Solid := ho.child (mem_append_right _ hmem)
  have hparts : ∀ as ∈ o.placeholders n, ∀ x ∈ as, x.Solid := fun as has x hx =>
    Solid.child (of_mem_placeholders (P := Solid) (fun t c hc ht => ht.child hc) has hsolid) hx
  constructor
  · intro heq as has hcount
    exact arguments_of_commutes hdistinct hlength ho hargs hmem heq has (hparts as has) hcount
  · intro h
    refine unrollNamed_subst trivial ho (solid_given hlength hargs) (fun v _ => ?_) hsolid fun as has => ?_
    · exact given_cases (P := fun t => unrollNamed n _ t = t) hlength
        (fun x hx => (hargs x hx).2.unrollNamed (hargs x hx).1.placeholders) rfl
    · exact (unroll_placeholder_iff hdistinct hlength ho hargs (hparts as has)).mpr (h as has)

end Definition

theorem isRigid_of_name? {n : String} (h : t.name? = some n) : t.IsRigid := by
  cases t with
  | union ms => cases h
  | var v => cases h
  | _ => exact trivial

end Ty

/-! ## Decomposing definitions and instances -/

namespace Arena

variable {a : Arena} {n : String} {params : List TyVar} {options args : List Ty}

/-- **A definition with parameters** under the bindings that there are: the parameters are different variables, are
    unbound, and are not hidden behind other variables. -/
structure Parametric (a : Arena) (n : String) (params : List TyVar) (options : List Ty) : Prop where
  distinct : (params.map TyVar.id).Nodup
  unbound : ∀ p ∈ params, a.binding? p.id = none
  solid : (generic n params options).Solid
  shown : ∀ v ∈ (generic n params options).vars, ∀ w ∈ (a.expose (.var v)).vars,
    w.id ∈ params.map TyVar.id → w.id = v.id

/-- Arguments remain arguments when they are brought into normal form. -/
theorem neutral_expose (hacyclic : a.Acyclic) (ha : a.Solid) {t : Ty} (ht : t.Neutral n) :
    (a.expose t).Neutral n ∧ (a.expose t).Proper := by
  refine ⟨⟨(ha.expose ht.solid).1, ?_, fun u hu hname => ?_⟩, ha.proper_expose ht.solid⟩
  · refine eq_nil_iff_forall_not_mem.mpr fun w hw => ?_
    rw [expose_unfold hacyclic] at hw
    obtain ⟨v, hv, -⟩ := mem_vars_subst.mp hw
    rw [ht.closed] at hv
    cases hv
  · rw [expose_unfold hacyclic] at hu
    rcases subterm_of_subst (isRigid_of_name? hname) hu with ⟨d, hd, hrigid, rfl⟩ | ⟨v, hv, -⟩
    · rw [name?_subst hrigid] at hname
      rw [ht.foreign d hd hname]
      rfl
    · rw [ht.closed] at hv
      cases hv

theorem Parametric.expose_generic (h : a.Parametric n params options) (hacyclic : a.Acyclic) :
    a.expose (generic n params options) = generic n params (options.map a.expose) := by
  have hparams : (params.map var).map (subst a.value) = params.map .var := by
    rw [map_map]
    exact map_congr_left fun p hp => value_unbound (h.unbound p hp)
  have hoptions : options.map (subst a.value) = options.map a.expose :=
    map_congr_left fun o _ => (expose_unfold hacyclic o).symm
  rw [expose_unfold hacyclic, generic, subst, substList_eq_map, substList_eq_map, hparams, hoptions, generic]

/-- An instance as seen through bindings. -/
theorem subst_value_instance (hacyclic : a.Acyclic) (ha : a.Solid) (hsolid : (generic n params options).Solid)
    (hlength : params.length = args.length) (hargs : ∀ t ∈ args, t.Neutral n) {u : Ty}
    (hu : (generic n params options).instantiate? args = some u) :
    a.expose u = (generic n params options).subst fun v => a.expose (given params args v) := by
  have hvalue : ∀ t : Ty, a.expose t = t.subst a.value := expose_unfold hacyclic
  simp only [hvalue]
  unfold instantiate? at hu
  split at hu
  · cases hu
    split
    · -- closed arguments are no parameters, so there are none
      rename_i hsame
      refine subst_congr fun v _ => ?_
      by_cases hv : v.id ∈ params.map TyVar.id
      · obtain ⟨p, -, hp⟩ := exists_given hlength hv
        have hp := (of_mem_zip hp).1
        have hclosed := (hargs (.var p) (hsame ▸ mem_map_of_mem hp)).closed
        cases hclosed
      · rw [given_of_notMem hv]
        rfl
    · exact hsolid.subst_subst
        (fun v _ => Ty.given_cases (P := Ty.Solid) hlength (fun t ht => (hargs t ht).solid) (Ty.solid_var v))
        (ha.value hacyclic)
  · cases hu

/-- **Exposing an instance** is giving the exposed definition the exposed arguments. -/
theorem Parametric.expose_instance (h : a.Parametric n params options) (hacyclic : a.Acyclic) (ha : a.Solid)
    (hlength : params.length = args.length) (hargs : ∀ t ∈ args, t.Neutral n) {u : Ty}
    (hu : (generic n params options).instantiate? args = some u) :
    a.expose u = (generic n params (options.map a.expose)).subst (given params (args.map a.expose)) := by
  have hlength' : params.length = (args.map a.expose).length := by
    rwa [length_map]
  have hargs' : ∀ x ∈ args.map a.expose, x.Neutral n ∧ x.Proper :=
    forall_mem_map.mpr fun t ht => neutral_expose hacyclic ha (hargs t ht)
  rw [subst_value_instance hacyclic ha h.solid hlength hargs hu, ← h.expose_generic hacyclic, expose_unfold hacyclic,
    h.solid.subst_subst (fun v _ => (ha.value hacyclic v).1) (solid_given hlength' hargs')]
  refine subst_congr fun v hv => ?_
  by_cases hparam : v.id ∈ params.map TyVar.id
  · -- parameters are unbound
    obtain ⟨p, hp, hid⟩ := mem_map.mp hparam
    rw [value_unbound (hid ▸ h.unbound p hp), subst, given_map h.distinct hlength _ hparam]
  · -- other variables are bound to nothing with parameters in it
    have hproper : (a.value v).Proper := by
      rw [← expose_var hacyclic]
      exact ha.proper_expose (solid_var v)
    rw [given_of_notMem hparam, expose_var hacyclic]
    conv_lhs => rw [← hproper.subst_var]
    refine subst_congr fun w hw => (given_of_notMem fun hmem => hparam ?_).symm
    rw [← expose_var hacyclic] at hw
    exact h.shown v hv w hw hmem ▸ hmem

end Arena

/-- **Unrolling commutes with instantiation for uniform recursion, and only then.** The decomposition of an instance is
    the decomposition of its definition with the arguments put in iff every placeholder that is replaced, and that takes
    as many arguments as there are parameters, has those of the instance once they are put in. -/
theorem unrolling_commutes_iff_uniform {a : Arena} (hacyclic : a.Acyclic) (ha : a.Solid) {n : String}
    {params : List TyVar} {options args : List Ty} (h : a.Parametric n params options)
    (hlength : params.length = args.length) (hargs : ∀ t ∈ args, t.Neutral n) :
    let σ := Ty.parameters (params.map .var) (args.map a.expose)
    ∃ u, (Ty.generic n params options).instantiate? args = some u ∧
      (a.decompose u = (a.decompose (Ty.generic n params options)).map (·.assign σ) ↔
        ∀ o ∈ options, ∀ as ∈ (a.expose o).placeholders n, as.length = params.length →
          as.map (·.assign σ) = args.map a.expose) := by
  intro σ
  obtain ⟨u, hu⟩ := Ty.exists_instantiate?_generic (n := n) options hlength.symm
  refine ⟨u, hu, ?_⟩
  have hlength' : params.length = (args.map a.expose).length := by
    rwa [List.length_map]
  have hargs' : ∀ x ∈ args.map a.expose, x.Neutral n ∧ x.Proper :=
    List.forall_mem_map.mpr fun t ht => Arena.neutral_expose hacyclic ha (hargs t ht)
  have hsolid : (Ty.generic n params (options.map a.expose)).Solid := by
    rw [← h.expose_generic hacyclic]
    exact (ha.expose h.solid).1
  have hinstance : a.decompose u = (options.map a.expose).map fun o =>
      Ty.unrollNamed n ((Ty.generic n params (options.map a.expose)).subst (Ty.given params (args.map a.expose)))
        (o.assign σ) := by
    rw [Arena.decompose, h.expose_instance hacyclic ha hlength hargs hu, Ty.subst_generic h.distinct hlength']
    exact List.map_map
  have hdefinition : (a.decompose (Ty.generic n params options)).map (·.assign σ) = (options.map a.expose).map fun o =>
      (Ty.unrollNamed n (Ty.generic n params (options.map a.expose)) o).assign σ := by
    rw [Arena.decompose, h.expose_generic hacyclic]
    exact List.map_map
  rw [hinstance, hdefinition, List.map_inj_left, List.forall_mem_map]
  exact forall₂_congr fun o ho =>
    Ty.unroll_option_iff h.distinct hlength' hsolid hargs' (List.mem_map_of_mem ho)

/-- Lists of functions: the placeholder repeats the parameter. -/
theorem unrolling_commutes_iff_uniform_list :
    let x : TyVar := ⟨2, "t2"⟩
    let a : Arena := (Context.new "main" false).fresh.2.store.arena
    let options : List Ty := [.record "Cons" [] [("head", .var x), ("tail", .recursive "List" [.var x])], .simple "Nil"]
    let f : Ty := .func (.union [.integer, .string]) .boolean
    ∃ u, (Ty.generic "List" [x] options).instantiate? [f] = some u ∧
      a.decompose u = (a.decompose (Ty.generic "List" [x] options)).map (·.assign [(2, f)]) := by
  intro x a options f
  have hnone : ∀ id, a.binding? id = none :=
    fun id => (Arena.binding?_fresh _ id).trans (Context.binding?_new "main" false id)
  have hbound : ∀ id u, a.binding? id ≠ some u := by
    intro id u hu
    rw [hnone id] at hu
    cases hu
  have hacyclic : a.Acyclic := Arena.acyclic_of_decreasing fun id u hu => absurd hu (hbound id u)
  have hdefinition : a.Parametric "List" [x] options := by
    refine ⟨by decide, fun p _ => hnone p.id, by decide +kernel, fun v _ w hw _ => ?_⟩
    rw [Arena.expose_unbound (hnone v.id)] at hw
    rw [List.mem_singleton.mp hw]
  have hargs : ∀ t ∈ [f], t.Neutral "List" :=
    List.forall_mem_singleton.mpr ⟨by decide +kernel, by decide +kernel, by decide +kernel⟩
  obtain ⟨u, hu, hiff⟩ := unrolling_commutes_iff_uniform hacyclic (fun id u hu => absurd hu (hbound id u)) hdefinition
    rfl hargs
  exact ⟨u, hu, hiff.mpr (by decide +kernel)⟩

/-- **Nested recursion is lost in instances.** The tail of a nest of integers should be a nest of pairs of integers, as
    it is in the definition; in the instance it is a nest of integers again. -/
theorem unrolling_forgets_nested_arguments :
    let x : TyVar := ⟨2, "t2"⟩
    let a : Arena := (Context.new "main" false).fresh.2.store.arena
    let pair : Ty → Ty := fun t => .record "Pair" [] [("fst", t), ("snd", t)]
    let options : List Ty :=
      [.record "Deep" [] [("head", .var x), ("tail", .recursive "Nest" [pair (.var x)])], .simple "Flat"]
    let deep : Ty → Ty → Ty := fun t u => .record "Deep" [] [("head", t), ("tail", u)]
    let nest : Ty → Ty := fun t => .algebraic "Nest" [t] [deep t (.recursive "Nest" [pair t]), .simple "Flat"]
    (Ty.generic "Nest" [x] options).instantiate? [.integer] = some (nest .integer) ∧
      a.decompose (nest .integer) = [deep .integer (nest .integer), .simple "Flat"] ∧
      (a.decompose (Ty.generic "Nest" [x] options)).map (·.assign [(2, .integer)]) =
        [deep .integer (nest (pair .integer)), .simple "Flat"] := by
  decide +kernel

end UnionTyping
