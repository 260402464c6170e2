import UnionTyping.Ty.Definition
import Mathlib.Logic.Basic

/-!
# `Proofs.Fragment` — induction over types, and the fragments of the type language

Most facts about the solver have one shape: *types of a certain kind go in, and only types of that kind
come out*. The kinds that matter are given by which variables may occur and by which of the constructors
may: a `Fragment` says so, and `Ty.In F` means that every part of a type is admitted by `F`.

This file supplies

* the induction principles `Ty.structural` and `Ty.childwise`, which hide that types contain lists of types;
* `mem_vars_iff` and `mem_subterms_iff`, the only places where `vars` and `subterms` are unfolded;
* the closure of fragments under what the solver builds: `In.subst`, `In.join`, `In.of_union?`,
  `DefinesIn.instantiate?` and `In.unroll`.
-/

namespace UnionTyping

open List Ty

variable {t u : Ty} {v : TyVar} {args ms : List Ty} {f : TyVar → Ty}

/-- What a list of pairs gives for a key is one of its entries. -/
theorem mem_of_lookup {α β : Type} [BEq α] [LawfulBEq α] {l : List (α × β)} {k : α} {b : β}
    (h : l.lookup k = some b) : (k, b) ∈ l := by
  obtain ⟨l₁, l₂, rfl, _⟩ := lookup_eq_some_iff.mp h
  exact mem_append_right _ mem_cons_self

/-- The first entry of a list of pairs is looked at first. -/
theorem lookup_cons_ite {α β : Type} [BEq α] [LawfulBEq α] [DecidableEq α] (k : α) (e : α × β)
    (l : List (α × β)) : (e :: l).lookup k = if k = e.1 then some e.2 else l.lookup k := by
  rw [lookup_cons]
  by_cases h : k = e.1
  · rw [if_pos h, beq_iff_eq.mpr h]
  · rw [if_neg h, beq_false_of_ne h]

namespace Ty

/-! ## Induction -/

/-- **Induction over types.** The lists inside a type give a hypothesis for each of their elements. -/
@[elab_as_elim]
theorem structural {motive : Ty → Prop} (simple : ∀ n, motive (.simple n))
    (func : ∀ a r, motive a → motive r → motive (.func a r))
    (record : ∀ n as fs, (∀ t ∈ as, motive t) → (∀ e ∈ fs, motive e.2) → motive (.record n as fs))
    (algebraic : ∀ n as os, (∀ t ∈ as, motive t) → (∀ t ∈ os, motive t) → motive (.algebraic n as os))
    (recursive : ∀ n as, (∀ t ∈ as, motive t) → motive (.recursive n as))
    (union : ∀ ms, (∀ t ∈ ms, motive t) → motive (.union ms))
    (var : ∀ v, motive (.var v)) (t : Ty) : motive t :=
  @Ty.rec motive (fun ts => ∀ t ∈ ts, motive t) (fun fs => ∀ e ∈ fs, motive e.2)
    (fun e => motive e.2) simple func record algebraic recursive union var
    (by simp)
    (fun _ _ ht hts => forall_mem_cons.mpr ⟨ht, hts⟩)
    (by simp)
    (fun _ _ he hes => forall_mem_cons.mpr ⟨he, hes⟩)
    (fun _ _ h => h) t

/-- Induction where the constructor does not matter: what passes from all children to the whole holds. -/
@[elab_as_elim]
theorem childwise {motive : Ty → Prop} (step : ∀ t, (∀ c ∈ t.children, motive c) → motive t) (t : Ty) : motive t := by
  induction t using structural with
  | simple n => exact step _ (by simp [children])
  | func a r ha hr => exact step _ (by simp [children, ha, hr])
  | record n as fs has hfs =>
    refine step _ fun c hc => ?_
    rcases mem_append.mp hc with h | h
    · exact has c h
    · obtain ⟨e, he, rfl⟩ := mem_map.mp h
      exact hfs e he
  | algebraic n as os has hos =>
    exact step _ fun c hc => (mem_append.mp hc).elim (has c) (hos c)
  | recursive n as has => exact step _ has
  | union ms hms => exact step _ hms
  | var v => exact step _ (by simp [children])

/-! ## Variables and parts -/

theorem subtermsFields_eq_flatMap (fs : List (String × Ty)) : subtermsFields fs = fs.flatMap fun e => subterms e.2 := by
  induction fs with
  | nil => rfl
  | cons e fs ih => rw [subtermsFields, ih, flatMap_cons]

/-- A variable occurs in a type iff the type is the variable or a child has it. -/
theorem mem_vars_iff : v ∈ t.vars ↔ t = .var v ∨ ∃ c ∈ t.children, v ∈ c.vars := by
  cases t with
  | record n as fs =>
    simp only [vars, children, varsList_eq_flatMap, varsFields_eq_flatMap, mem_append,
      mem_flatMap, mem_map, exists_exists_and_eq_and, or_and_right, exists_or,
      reduceCtorEq, false_or]
  | _ => simp [vars, children, varsList_eq_flatMap, or_and_right, exists_or, eq_comm]

/-- A type is a part of another iff it is the other one or a part of a child. -/
theorem mem_subterms_iff : u ∈ t.subterms ↔ u = t ∨ ∃ c ∈ t.children, u ∈ c.subterms := by
  cases t with
  | record n as fs =>
    simp only [subterms, children, subtermsList_eq_flatMap, subtermsFields_eq_flatMap,
      mem_cons, mem_append, mem_flatMap, mem_map, exists_exists_and_eq_and,
      or_and_right, exists_or]
  | _ => simp [subterms, children, subtermsList_eq_flatMap, or_and_right, exists_or]

theorem mem_vars_of_child {c : Ty} (hc : c ∈ t.children) (hv : v ∈ c.vars) : v ∈ t.vars :=
  mem_vars_iff.mpr (Or.inr ⟨c, hc, hv⟩)

theorem self_mem_subterms (t : Ty) : t ∈ t.subterms :=
  mem_subterms_iff.mpr (Or.inl rfl)

/-- What holds of all parts of a type holds of the type and of all parts of its children. -/
theorem forall_subterms_iff {P : Ty → Prop} :
    (∀ u ∈ t.subterms, P u) ↔ P t ∧ ∀ c ∈ t.children, ∀ u ∈ c.subterms, P u := by
  constructor
  · intro h
    exact ⟨h t t.self_mem_subterms, fun c hc u hu => h u (mem_subterms_iff.mpr (Or.inr ⟨c, hc, hu⟩))⟩
  · rintro ⟨ht, hc⟩ u hu
    rcases mem_subterms_iff.mp hu with rfl | ⟨c, hm, hu⟩
    · exact ht
    · exact hc c hm u hu

@[simp] theorem vars_var (v : TyVar) : (var v).vars = [v] := rfl

/-- The variables of a type are its parts that are variables. -/
theorem var_mem_subterms : var v ∈ t.subterms ↔ v ∈ t.vars := by
  induction t using childwise with
  | step t ih =>
    rw [mem_subterms_iff, mem_vars_iff]
    refine or_congr eq_comm ⟨?_, ?_⟩
    · rintro ⟨c, hc, h⟩
      exact ⟨c, hc, (ih c hc).mp h⟩
    · rintro ⟨c, hc, h⟩
      exact ⟨c, hc, (ih c hc).mpr h⟩

/-! ## Unions in normal form -/

theorem mem_vars_alternatives : (∃ m ∈ t.alternatives, v ∈ m.vars) ↔ v ∈ t.vars := by
  cases t <;> simp [alternatives, vars, varsList_eq_flatMap]

/-- The flattened members without repetitions, from which `union?` builds. -/
theorem mem_flattened : t ∈ (ms.flatMap alternatives).eraseDups ↔ ∃ m ∈ ms, t ∈ m.alternatives := by
  rw [mem_eraseDups, mem_flatMap]

/-- What `union?` gives: the only member there is, or the union of all of them. -/
theorem union?_cases (h : union? ms = some t) : (ms.flatMap alternatives).eraseDups = [t] ∨
      ∃ u us, t = .union (u :: us) ∧ (ms.flatMap alternatives).eraseDups = u :: us := by
  unfold union? at h
  split at h
  · cases h
  · rename_i u hu
    injection h with h
    exact Or.inl (h ▸ hu)
  · rename_i hnil _
    injection h with h
    obtain ⟨u, us, hus⟩ := exists_cons_of_ne_nil hnil
    exact Or.inr ⟨u, us, by rw [← h, hus], hus⟩

/-- There is no union iff no member has an alternative. -/
theorem union?_eq_none_iff : union? ms = none ↔ ∀ m ∈ ms, m.alternatives = [] := by
  rw [← flatMap_eq_nil_iff]
  unfold union?
  constructor
  · intro h
    split at h
    · rename_i hnil
      refine eq_nil_iff_forall_not_mem.mpr fun x hx => ?_
      exact absurd (hnil ▸ mem_eraseDups.mpr hx) not_mem_nil
    · cases h
    · cases h
  · intro h
    rw [h]
    rfl

/-- A union in normal form has the variables of its members. -/
theorem mem_vars_union? (h : union? ms = some t) : v ∈ t.vars ↔ ∃ m ∈ ms, v ∈ m.vars := by
  have hflat : (∃ u ∈ (ms.flatMap alternatives).eraseDups, v ∈ u.vars) ↔ ∃ m ∈ ms, v ∈ m.vars := by
    constructor
    · rintro ⟨u, hu, hv⟩
      obtain ⟨m, hm, hum⟩ := mem_flattened.mp hu
      exact ⟨m, hm, mem_vars_alternatives.mp ⟨u, hum, hv⟩⟩
    · rintro ⟨m, hm, hv⟩
      obtain ⟨u, hu, hv⟩ := mem_vars_alternatives.mpr hv
      exact ⟨u, mem_flattened.mpr ⟨m, hm, hu⟩, hv⟩
  rw [← hflat]
  rcases union?_cases h with he | ⟨u, us, rfl, he⟩
  · simp [he]
  · rw [he]
    simp [vars, varsList_eq_flatMap]

theorem mem_vars_join : v ∈ (join ms).vars ↔ ∃ m ∈ ms, v ∈ m.vars := by
  unfold join
  cases h : union? ms with
  | some t => exact mem_vars_union? h
  | none => simp [vars, varsList_eq_flatMap]

/-! ## Substitution -/

/-- A type that substitution rebuilds from its children: neither a variable nor a union. -/
def IsRigid : Ty → Prop
  | .var _ => False
  | .union _ => False
  | _ => True

/-- Induction along substitution, which treats all rigid types alike. -/
@[elab_as_elim]
theorem rigidly {motive : Ty → Prop} (var : ∀ v, motive (.var v))
    (union : ∀ ms, (∀ m ∈ ms, motive m) → motive (.union ms))
    (rigid : ∀ t, t.IsRigid → (∀ c ∈ t.children, motive c) → motive t) (t : Ty) : motive t := by
  induction t using childwise with
  | step t ih =>
    cases t with
    | var v => exact var v
    | union ms => exact union ms ih
    | _ => exact rigid _ trivial ih

/-- The type with its children passed through a function. Unions are not brought into normal form. -/
def mapChildren (f : Ty → Ty) : Ty → Ty
  | .simple n => .simple n
  | .func a r => .func (f a) (f r)
  | .record n args fields => .record n (args.map f) (fields.map fun e => (e.1, f e.2))
  | .algebraic n args options => .algebraic n (args.map f) (options.map f)
  | .recursive n args => .recursive n (args.map f)
  | .union members => .union (members.map f)
  | .var v => .var v

theorem children_mapChildren (f : Ty → Ty) (t : Ty) : (t.mapChildren f).children = t.children.map f := by
  cases t <;> simp [mapChildren, children, Function.comp_def]

theorem mapChildren_congr {f g : Ty → Ty} (h : ∀ c ∈ t.children, f c = g c) : t.mapChildren f = t.mapChildren g := by
  have hlist : ∀ ts : List Ty, ts ⊆ t.children → ts.map f = ts.map g :=
    fun ts hts => map_congr_left fun c hc => h c (hts hc)
  cases t with
  | simple n => rfl
  | func a r => rw [mapChildren, mapChildren, h a (by simp [children]), h r (by simp [children])]
  | record n as fs =>
    have hfields : fs.map (fun e => (e.1, f e.2)) = fs.map fun e => (e.1, g e.2) := by
      refine map_congr_left fun e he => ?_
      rw [h e.2 (mem_append_right as (mem_map_of_mem he))]
    rw [mapChildren, mapChildren, hlist as (subset_append_left _ _), hfields]
  | algebraic n as os =>
    rw [mapChildren, mapChildren, hlist as (subset_append_left _ _), hlist os (subset_append_right _ _)]
  | recursive n as => rw [mapChildren, mapChildren, hlist as (List.Subset.refl _)]
  | union ms => rw [mapChildren, mapChildren, hlist ms (List.Subset.refl _)]
  | var v => rfl

theorem mapChildren_mapChildren (f g : Ty → Ty) (t : Ty) : (t.mapChildren f).mapChildren g = t.mapChildren (g ∘ f) := by
  cases t <;> simp [mapChildren, Function.comp_def]

theorem mapChildren_of_forall_eq {f : Ty → Ty} (h : ∀ c ∈ t.children, f c = c) : t.mapChildren f = t := by
  rw [mapChildren_congr (g := id) h]
  cases t <;> simp [mapChildren]

theorem IsRigid.mapChildren (h : t.IsRigid) (f : Ty → Ty) : (t.mapChildren f).IsRigid := by
  cases t with
  | var v => exact h.elim
  | union ms => exact h.elim
  | _ => exact trivial

theorem IsRigid.subst_eq (h : t.IsRigid) : t.subst f = t.mapChildren (subst f) := by
  cases t with
  | var v => exact h.elim
  | union ms => exact h.elim
  | _ => simp [Ty.subst, Ty.mapChildren, substList_eq_map, substFields_eq_map]

theorem children_subst (h : t.IsRigid) : (t.subst f).children = t.children.map (subst f) := by
  rw [h.subst_eq, children_mapChildren]

theorem IsRigid.subst (h : t.IsRigid) : (t.subst f).IsRigid := by
  rw [h.subst_eq]
  exact h.mapChildren _

theorem IsRigid.ne_var (h : t.IsRigid) (v : TyVar) : t ≠ .var v := by
  rintro rfl
  exact h

/-- Substituting twice is substituting once in a rigid type, if it is in its children. -/
theorem IsRigid.subst_subst {g : TyVar → Ty} (h : t.IsRigid)
    (hc : ∀ c ∈ t.children, (c.subst f).subst g = c.subst fun v => (f v).subst g) :
    (t.subst f).subst g = t.subst fun v => (f v).subst g := by
  rw [h.subst.subst_eq, h.subst_eq, h.subst_eq, mapChildren_mapChildren]
  exact mapChildren_congr hc

/-- The variables of a substituted type are those of the types put in. -/
theorem mem_vars_subst {w : TyVar} : w ∈ (t.subst f).vars ↔ ∃ v ∈ t.vars, w ∈ (f v).vars := by
  induction t using rigidly with
  | var v => simp [subst]
  | union ms ih =>
    simp only [subst, mem_vars_join, substList_eq_map, mem_map, exists_exists_and_eq_and,
      vars, varsList_eq_flatMap, mem_flatMap]
    constructor
    · rintro ⟨m, hm, hw⟩
      obtain ⟨v, hv, hw⟩ := (ih m hm).mp hw
      exact ⟨v, ⟨m, hm, hv⟩, hw⟩
    · rintro ⟨v, ⟨m, hm, hv⟩, hw⟩
      exact ⟨m, hm, (ih m hm).mpr ⟨v, hv, hw⟩⟩
  | rigid t ht ih =>
    rw [mem_vars_iff, children_subst ht]
    simp only [mem_map, exists_exists_and_eq_and]
    constructor
    · rintro (h | ⟨c, hc, hw⟩)
      · exact absurd h (ht.subst.ne_var w)
      · obtain ⟨v, hv, hw⟩ := (ih c hc).mp hw
        exact ⟨v, mem_vars_of_child hc hv, hw⟩
    · rintro ⟨v, hv, hw⟩
      rcases mem_vars_iff.mp hv with h | ⟨c, hc, hv⟩
      · exact absurd h (ht.ne_var v)
      · exact Or.inr ⟨c, hc, (ih c hc).mpr ⟨v, hv, hw⟩⟩

/-- Only the values at a type's own variables matter. -/
theorem subst_congr {g : TyVar → Ty} (h : ∀ v ∈ t.vars, f v = g v) : t.subst f = t.subst g := by
  induction t using rigidly with
  | var v => exact h v (by simp)
  | union ms ih =>
    have hmembers : ms.map (subst f) = ms.map (subst g) :=
      map_congr_left fun m hm => ih m hm fun v hv => h v (mem_vars_of_child (t := .union ms) hm hv)
    rw [subst, subst, substList_eq_map, substList_eq_map, hmembers]
  | rigid t ht ih =>
    rw [ht.subst_eq, ht.subst_eq]
    exact mapChildren_congr fun c hc => ih c hc fun v hv => h v (mem_vars_of_child hc hv)

/-! ## Unrolling -/

section Unrolling

variable {n : String} {owner : Ty}

theorem unrollList_eq_map (n : String) (owner : Ty) (ts : List Ty) :
    unrollList n owner ts = ts.map (unrollNamed n owner) := by
  induction ts with
  | nil => rfl
  | cons t ts ih => rw [unrollList, ih, map_cons]

theorem unrollFields_eq_map (n : String) (owner : Ty) (fs : List (String × Ty)) :
    unrollFields n owner fs = fs.map fun e => (e.1, unrollNamed n owner e.2) := by
  induction fs with
  | nil => rfl
  | cons e fs ih => rw [unrollFields, ih, map_cons]

theorem unrollNamed_recursive (as : List Ty) :
    unrollNamed n owner (recursive n as) = (owner.instantiate? as).getD (recursive n as) := by
  rw [unrollNamed, if_pos rfl]

theorem unrollNamed_union (ms : List Ty) : unrollNamed n owner (union ms) = join (ms.map (unrollNamed n owner)) := by
  rw [unrollNamed, unrollList_eq_map]

/-- A type of another name is rebuilt from its children. -/
theorem IsRigid.unrollNamed (ht : t.IsRigid) (h : t.name? ≠ some n) :
    unrollNamed n owner t = t.mapChildren (unrollNamed n owner) := by
  have hne : ∀ {m : String}, some m ≠ some n → m ≠ n := fun h hm => h (hm ▸ rfl)
  cases t with
  | simple m => rfl
  | func a r => rfl
  | record m as fs =>
    rw [Ty.unrollNamed, if_neg (hne h), unrollList_eq_map, unrollFields_eq_map, Ty.mapChildren]
  | algebraic m as os =>
    rw [Ty.unrollNamed, if_neg (hne h), unrollList_eq_map, unrollList_eq_map, Ty.mapChildren]
  | recursive m as => rw [Ty.unrollNamed, if_neg (hne h), unrollList_eq_map, Ty.mapChildren]
  | union ms => exact ht.elim
  | var v => exact ht.elim

/-- The type has the name itself, and placeholders inside it are its own. -/
def Shadows (n : String) : Ty → Prop
  | .simple m => m = n
  | .record m _ _ => m = n
  | .algebraic m _ _ => m = n
  | _ => False

theorem Shadows.unrollNamed (h : t.Shadows n) : unrollNamed n owner t = t := by
  cases t with
  | simple m => rfl
  | record m as fs =>
    rw [unrollNamed]
    exact if_pos h
  | algebraic m as os =>
    rw [unrollNamed]
    exact if_pos h
  | _ => exact h.elim

theorem Shadows.isRigid (h : t.Shadows n) : t.IsRigid := by
  cases t with
  | union ms => exact h.elim
  | var v => exact h.elim
  | _ => exact trivial

/-- **Induction along unrolling**: variables, unions, placeholders of the name, other types of the name, and the types
    that are rebuilt from their children. -/
@[elab_as_elim]
theorem unrolling {motive : Ty → Prop} (n : String) (var : ∀ v, motive (.var v))
    (union : ∀ ms, (∀ m ∈ ms, motive m) → motive (.union ms))
    (placeholder : ∀ as, motive (.recursive n as)) (shadow : ∀ t, t.Shadows n → motive t)
    (other : ∀ t, t.IsRigid → t.name? ≠ some n → (∀ c ∈ t.children, motive c) → motive t) (t : Ty) : motive t := by
  induction t using rigidly with
  | var v => exact var v
  | union ms ih => exact union ms ih
  | rigid t ht ih =>
    by_cases hname : t.name? = some n
    · cases t with
      | recursive m as =>
        injection hname with hname
        exact hname ▸ placeholder as
      | func a r => cases hname
      | union ms => exact ht.elim
      | var v => exact ht.elim
      | _ =>
        injection hname with hname
        exact shadow _ hname
    · exact other t ht hname ih

end Unrolling

end Ty

/-! ## Fragments -/

variable {F : Fragment}

/-- A fragment of the type language: the variables and the constructors that may occur. Simple types and
    functions may always. -/
structure Fragment where
  /-- The variables that may occur. -/
  vars : TyVar → Prop
  /-- Whether unions and sums may occur. -/
  choices : Prop
  /-- Whether a union may be without members. -/
  hollow : Prop
  /-- Whether placeholders may occur. -/
  placeholders : Prop
  /-- Whether records, and sums among the choices, may occur. -/
  named : Prop

namespace Fragment

/-- Whether the topmost constructor may occur. -/
def Admits (F : Fragment) : Ty → Prop
  | .var v => F.vars v
  | .union ms => F.choices ∧ (ms = [] → F.hollow)
  | .algebraic _ _ _ => F.choices ∧ F.named
  | .recursive _ _ => F.placeholders
  | .record _ _ _ => F.named
  | _ => True

/-- One fragment is part of another. -/
structure Le (F G : Fragment) : Prop where
  vars : ∀ v, F.vars v → G.vars v
  choices : F.choices → G.choices
  hollow : F.hollow → G.hollow
  placeholders : F.placeholders → G.placeholders
  named : F.named → G.named

theorem Le.admits {G : Fragment} (h : F.Le G) (ht : F.Admits t) : G.Admits t := by
  cases t with
  | var v => exact h.vars v ht
  | union ms => exact ⟨h.choices ht.1, fun hms => h.hollow (ht.2 hms)⟩
  | algebraic n as os => exact ht.imp h.choices h.named
  | recursive n as => exact h.placeholders ht
  | record n as fs => exact h.named ht
  | _ => trivial

/-- The same constructors, and other variables. -/
def withVars (F : Fragment) (vars : TyVar → Prop) : Fragment :=
  { F with vars }

theorem Le.withVars {G : Fragment} (h : F.Le G) {vars vars' : TyVar → Prop} (hv : ∀ v, vars v → vars' v) :
    (F.withVars vars).Le (G.withVars vars') :=
  ⟨hv, h.choices, h.hollow, h.placeholders, h.named⟩

end Fragment

namespace Ty

/-- Every part of the type is admitted by the fragment. -/
def In (F : Fragment) (t : Ty) : Prop :=
  ∀ u ∈ t.subterms, F.Admits u

variable {G : Fragment}

theorem in_iff : t.In F ↔ F.Admits t ∧ ∀ c ∈ t.children, c.In F :=
  forall_subterms_iff

theorem In.child {c : Ty} (h : t.In F) (hc : c ∈ t.children) : c.In F :=
  (in_iff.mp h).2 c hc

theorem In.admits (h : t.In F) : F.Admits t :=
  (in_iff.mp h).1

theorem In.mono (h : t.In F) (hFG : F.Le G) : t.In G :=
  fun u hu => hFG.admits (h u hu)

@[simp] theorem in_var : (var v).In F ↔ F.vars v := by
  rw [in_iff]
  simp [Fragment.Admits, children]

@[simp] theorem in_simple {n : String} : (simple n).In F := by
  rw [in_iff]
  simp [Fragment.Admits, children]

@[simp] theorem in_func {a r : Ty} : (func a r).In F ↔ a.In F ∧ r.In F := by
  rw [in_iff]
  simp [Fragment.Admits, children]

theorem in_union : (union ms).In F ↔ (F.choices ∧ (ms = [] → F.hollow)) ∧ ∀ m ∈ ms, m.In F :=
  in_iff

theorem In.vars (h : t.In F) (hv : v ∈ t.vars) : F.vars v :=
  h (.var v) (var_mem_subterms.mpr hv)

/-- In a fragment that forbids no constructor only the variables matter. -/
theorem in_of_vars (hc : F.choices) (hh : F.hollow) (hp : F.placeholders) (hn : F.named)
    (h : ∀ v ∈ t.vars, F.vars v) : t.In F := by
  intro u hu
  cases u with
  | var v => exact h v (var_mem_subterms.mp hu)
  | union ms => exact ⟨hc, fun _ => hh⟩
  | algebraic n as os => exact ⟨hc, hn⟩
  | recursive n as => exact hp
  | record n as fs => exact hn
  | _ => trivial

/-- Which variables may occur can be changed where those that do occur are known. -/
theorem In.of_vars {vars : TyVar → Prop} (h : t.In (F.withVars vars)) (hv : ∀ v ∈ t.vars, F.vars v) : t.In F := by
  intro u hu
  have hadm := h u hu
  cases u with
  | var v => exact hv v (var_mem_subterms.mp hu)
  | _ => exact hadm

theorem In.alternative {m : Ty} (h : t.In F) (hm : m ∈ t.alternatives) : m.In F := by
  cases t with
  | union ms => exact h.child hm
  | _ => exact mem_singleton.mp hm ▸ h

/-- Outside of hollow unions a type has an alternative. -/
theorem In.alternatives_ne_nil (h : t.In F) (hF : ¬F.hollow) : t.alternatives ≠ [] := by
  cases t with
  | union ms => exact fun hms => hF (h.admits.2 hms)
  | _ => exact cons_ne_nil _ _

/-! ### Closure under what the solver builds -/

theorem In.of_union? (hc : F.choices) (hms : ∀ m ∈ ms, m.In F) (h : union? ms = some t) : t.In F := by
  have hflat : ∀ u ∈ (ms.flatMap alternatives).eraseDups, u.In F := by
    intro u hu
    obtain ⟨m, hm, hum⟩ := mem_flattened.mp hu
    exact (hms m hm).alternative hum
  rcases union?_cases h with he | ⟨u, us, rfl, he⟩
  · exact hflat t (by simp [he])
  · exact in_union.mpr ⟨⟨hc, fun hnil => absurd hnil (cons_ne_nil _ _)⟩, he ▸ hflat⟩

theorem In.join (hc : F.choices) (hh : ms = [] → F.hollow) (hms : ∀ m ∈ ms, m.In F) : (join ms).In F := by
  unfold Ty.join
  cases h : union? ms with
  | some t => exact In.of_union? hc hms h
  | none => exact in_union.mpr ⟨⟨hc, hh⟩, hms⟩

/-- **Substitution leads into a fragment** if the types put in are of it: the variables of the type itself
    do not matter. -/
theorem In.subst {vars : TyVar → Prop} (h : t.In (F.withVars vars)) (hf : ∀ v ∈ t.vars, (f v).In F) :
    (t.subst f).In F := by
  induction t using rigidly with
  | var v => exact hf v (by simp)
  | union ms ih =>
    rw [Ty.subst, substList_eq_map]
    refine In.join h.admits.1 (fun hnil => h.admits.2 (map_eq_nil_iff.mp hnil)) ?_
    refine forall_mem_map.mpr fun m hm => ?_
    have hmc : m ∈ (union ms).children := hm
    exact ih m hm (h.child hmc) fun v hv => hf v (mem_vars_of_child hmc hv)
  | rigid t ht ih =>
    refine in_iff.mpr ⟨?_, ?_⟩
    · have hadm := h.admits
      cases t with
      | var v => exact ht.elim
      | union ms => exact ht.elim
      | _ => exact hadm
    · rw [children_subst ht]
      refine forall_mem_map.mpr fun c hc => ?_
      exact ih c hc (h.child hc) fun v hv => hf v (mem_vars_of_child hc hv)

/-! ### Named types -/

theorem mem_arguments_children (h : u ∈ t.arguments) : u ∈ t.children := by
  cases t with
  | record n as fs => exact mem_append_left _ h
  | algebraic n as os => exact mem_append_left _ h
  | recursive n as => exact h
  | _ => cases h

theorem mem_of_get? {σ : Assignment} {id : Nat} (h : σ.get? id = some t) : (id, t) ∈ σ :=
  mem_reverse.mp (mem_of_lookup h)

theorem mem_parameters {params : List Ty} {id : Nat} (h : (id, t) ∈ parameters params args) : t ∈ args := by
  unfold parameters at h
  obtain ⟨⟨p, a⟩, hp, he⟩ := mem_filterMap.mp h
  cases p with
  | var v =>
    cases he
    exact (of_mem_zip hp).2
  | _ => cases he

/-- Every parameter that is a variable is given an argument. -/
theorem exists_argument {params : List Ty} (hlen : params.length = args.length) (hv : var v ∈ params) :
    ∃ t, (parameters params args).get? v.id = some t := by
  obtain ⟨i, hi, hget⟩ := getElem_of_mem hv
  have hi' : i < args.length := hlen ▸ hi
  have hzip : (var v, args[i]) ∈ params.zip args := by
    refine mem_iff_getElem.mpr ⟨i, by rw [length_zip]; omega, ?_⟩
    rw [getElem_zip, hget]
  have hmem : (v.id, args[i]) ∈ parameters params args :=
    mem_filterMap.mpr ⟨_, hzip, rfl⟩
  refine Option.isSome_iff_exists.mp (lookup_isSome_iff.mpr ⟨_, mem_reverse.mpr hmem, ?_⟩)
  exact beq_self_eq_true _

/-- **A type as a definition** of the fragment: its own parameters are variables that it may have besides
    those of the fragment. -/
def DefinesIn (F : Fragment) (t : Ty) : Prop :=
  t.In (F.withVars fun v => F.vars v ∨ var v ∈ t.arguments)

theorem In.definesIn (h : t.In F) : t.DefinesIn F :=
  h.mono ⟨fun _ hv => Or.inl hv, id, id, id, id⟩

theorem DefinesIn.mono (h : t.DefinesIn F) (hFG : F.Le G) : t.DefinesIn G :=
  In.mono h (hFG.withVars fun v hv => hv.imp (hFG.vars v) fun h => h)

/-- **Instantiating leads into the fragment** if the arguments are of it, since they replace the
    parameters. -/
theorem DefinesIn.instantiate? (ht : t.DefinesIn F) (hargs : ∀ a ∈ args, a.In F) (h : t.instantiate? args = some u) :
    u.In F := by
  unfold Ty.instantiate? at h
  split at h
  · rename_i hlen
    cases h
    split
    · rename_i heq
      refine In.of_vars ht fun v hv => ?_
      rcases In.vars ht hv with hF | hparam
      · exact hF
      · exact in_var.mp (hargs _ (heq ▸ hparam))
    · refine In.subst ht fun v hv => ?_
      cases hget : (parameters t.arguments args).get? v.id with
      | some a => exact hargs a (mem_parameters (mem_of_get? hget))
      | none =>
        rcases In.vars ht hv with hF | hparam
        · exact in_var.mpr hF
        · obtain ⟨a, ha⟩ := exists_argument hlen hparam
          rw [ha] at hget
          cases hget
  · cases h

theorem IsRigid.in_mapChildren {g : Ty → Ty} (ht : t.IsRigid) :
    (t.mapChildren g).In F ↔ F.Admits t ∧ ∀ c ∈ t.children, (g c).In F := by
  rw [in_iff, children_mapChildren, forall_mem_map]
  cases t with
  | var v => exact ht.elim
  | union ms => exact ht.elim
  | _ => exact Iff.rfl

/-- **Unrolling stays in a fragment**, since all it puts in are instances of the owner. -/
theorem In.unrollNamed {name : String} {owner : Ty} (ho : owner.In F) (h : t.In F) :
    (unrollNamed name owner t).In F := by
  induction t using unrolling name with
  | var v => exact h
  | union ms ih =>
    rw [unrollNamed_union]
    refine In.join h.admits.1 (fun hnil => h.admits.2 (map_eq_nil_iff.mp hnil)) ?_
    exact forall_mem_map.mpr fun t ht => ih t ht (h.child ht)
  | placeholder as =>
    rw [unrollNamed_recursive]
    cases hi : owner.instantiate? as with
    | some u => exact ho.definesIn.instantiate? (fun a ha => h.child ha) hi
    | none => exact h
  | shadow t hshadow => rwa [hshadow.unrollNamed]
  | other t ht hname ih =>
    rw [ht.unrollNamed hname, ht.in_mapChildren]
    exact ⟨h.admits, fun c hc => ih c hc (h.child hc)⟩

theorem In.unroll {owner : Ty} (ho : owner.In F) (h : t.In F) : (t.unroll owner).In F := by
  unfold Ty.unroll
  split
  · exact In.unrollNamed ho h
  · exact h

end Ty

/-- Every registered definition lies in the fragment, its parameters aside. Where placeholders may not
    occur, definitions do not matter. -/
def Definitions.In (F : Fragment) (d : Definitions) : Prop :=
  F.placeholders → ∀ e ∈ d.entries, e.2.DefinesIn F

/-- What a placeholder unfolds to stays in the fragment. -/
theorem Definitions.In.expand? {d : Definitions} (hd : d.In F) (ht : t.In F) (h : d.expand? t = some u) : u.In F := by
  cases t with
  | recursive n as =>
    obtain ⟨def', hdef, hinst⟩ := Option.bind_eq_some_iff.mp h
    exact (hd ht.admits _ (mem_of_lookup hdef)).instantiate? (fun a ha => ht.child ha) hinst
  | _ => cases h

end UnionTyping
