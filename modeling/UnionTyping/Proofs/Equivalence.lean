import Mathlib.Data.Fintype.EquivFin
import UnionTyping.Proofs.Exposed

/-!
# `Proofs.Equivalence` — how far equivalence of types is an equivalence

Equivalent types are equal up to the order of union members and the names of variables. Equivalence is reflexive and
transitive (`Ty.equiv_trans`), for types of every kind. Symmetry is another matter. Unions are compared by their
length and by looking for a counterpart of each member of the first; two members of the first may have the same
counterpart, and then a member of the second is left without one. This takes two members that are different but
equivalent, such as functions from the same union in different orders, for repetitions are dropped from unions only if
they are equal to the letter.

A type in which no union has such members is called *distinct*. From a distinct type equivalence can be turned round
(`Ty.Distinct.equiv_symm`): no counterpart is shared, so by counting none is left over. From any other type in normal
form it cannot: put a name that is nowhere else in the place of the redundant member (`Ty.exists_unsymmetric`).
-/

namespace UnionTyping

open List

namespace Ty

/-! ## Equivalence part by part -/

variable {xs ys : List Ty} {t u : Ty} {R : Ty → Ty → Prop}

theorem equivList_of_forall₂ {ts us : List Ty} (h : Forall₂ (fun x y => x.equiv y = true) ts us) :
    equivList ts us = true := by
  induction h with
  | nil => rfl
  | cons hx _ ih => rw [equivList, hx, ih, Bool.and_self]

/-- **Types that are neither variables nor unions are equivalent iff they agree part by part.** -/
theorem IsRigid.equiv_iff (ht : t.IsRigid) : t.equiv u = true ↔ Congruent (fun x y => x.equiv y = true) t u := by
  refine ⟨ht.congruent, fun h => ?_⟩
  cases t with
  | simple n =>
    cases u with
    | simple m => exact decide_eq_true h
    | _ => exact h.elim
  | func a r =>
    cases u with
    | func b t => rw [equiv, h.1, h.2, Bool.and_self]
    | _ => exact h.elim
  | record n as fs =>
    cases u with
    | record m bs gs =>
      obtain ⟨hname, has, hlabels, hfs⟩ := h
      rw [equiv, decide_eq_true hname, equivList_of_forall₂ has,
        equivFields_iff.mpr ⟨hlabels, equivList_of_forall₂ hfs⟩]
      rfl
    | _ => exact h.elim
  | algebraic n as os =>
    cases u with
    | algebraic m bs ps =>
      rw [equiv, decide_eq_true h.1, equivList_of_forall₂ h.2.1, equivList_of_forall₂ h.2.2]
      rfl
    | _ => exact h.elim
  | recursive n as =>
    cases u with
    | recursive m bs =>
      rw [equiv, decide_eq_true h.1, equivList_of_forall₂ h.2]
      rfl
    | _ => exact h.elim
  | union ms => exact ht.elim
  | var w => exact ht.elim

theorem equiv_union_iff : (union xs).equiv (union ys) = true ↔
    xs.length = ys.length ∧ ∀ x ∈ xs, ∃ y ∈ ys, x.equiv y = true := by
  rw [equiv, Bool.and_eq_true, decide_eq_true_iff]
  exact and_congr_right fun _ => ⟨exists_of_equivMembers, equivMembers_of_forall⟩

/-- A type with an equivalent one is a union iff the other one is. -/
theorem union_of_equiv (h : (union xs).equiv u = true) : ∃ ys, u = union ys := by
  cases u with
  | union ys => exact ⟨ys, rfl⟩
  | _ => cases h

theorem var_of_equiv {w : TyVar} (h : (var w).equiv u = true) : ∃ w', u = var w' ∧ w.id = w'.id := by
  cases u with
  | var w' => exact ⟨w', rfl, of_decide_eq_true h⟩
  | _ => cases h

/-! ## Transitivity -/

variable {v : Ty}

theorem forall₂_trans {R S T : Ty → Ty → Prop} {zs : List Ty} (hR : Forall₂ R xs ys) (hS : Forall₂ S ys zs)
    (h : ∀ x ∈ xs, ∀ y z, R x y → S y z → T x z) : Forall₂ T xs zs := by
  induction hR generalizing zs with
  | nil =>
    cases hS with
    | nil => exact .nil
  | cons hx _ ih =>
    cases hS with
    | cons hy hS =>
      obtain ⟨hhead, htail⟩ := forall_mem_cons.mp h
      exact .cons (hhead _ _ hx hy) (ih hS htail)

/-- Agreement part by part passes on if the relations between parts do. -/
theorem Congruent.trans {R S T : Ty → Ty → Prop} (hR : Congruent R t u) (hS : Congruent S u v)
    (h : ∀ x ∈ t.children, ∀ y z, R x y → S y z → T x z) : Congruent T t v := by
  obtain ⟨hrigid, hshape, hchildren⟩ := congruent_iff.mp hR
  obtain ⟨-, hshape', hchildren'⟩ := congruent_iff.mp hS
  exact congruent_iff.mpr ⟨hrigid, hshape.trans hshape', forall₂_trans hchildren hchildren' h⟩

/-- **Equivalence is transitive.** -/
theorem equiv_trans (h : t.equiv u = true) (h' : u.equiv v = true) : t.equiv v = true := by
  induction t using Ty.rigidly generalizing u v with
  | var w =>
    obtain ⟨w', rfl, hid⟩ := var_of_equiv h
    obtain ⟨w'', rfl, hid'⟩ := var_of_equiv h'
    exact decide_eq_true (hid.trans hid')
  | rigid t ht ih =>
    rw [(ht.of_equiv h).equiv_iff] at h'
    rw [ht.equiv_iff] at h ⊢
    exact h.trans h' fun x hx _ _ hxy hyz => ih x hx hxy hyz
  | union xs ih =>
    obtain ⟨ys, rfl⟩ := union_of_equiv h
    obtain ⟨zs, rfl⟩ := union_of_equiv h'
    rw [equiv_union_iff] at h h' ⊢
    refine ⟨h.1.trans h'.1, fun x hx => ?_⟩
    obtain ⟨y, hy, hxy⟩ := h.2 x hx
    obtain ⟨z, hz, hyz⟩ := h'.2 y hy
    exact ⟨z, hz, ih x hx hxy hyz⟩

/-! ## Distinct types -/

/-- **No union in the type has two members of which one is equivalent to the other.** -/
def Distinct (t : Ty) : Prop :=
  ∀ u ∈ t.subterms, u.alternatives.Pairwise fun x y => x.equiv y = false ∧ y.equiv x = false

instance (t : Ty) : Decidable t.Distinct :=
  inferInstanceAs (Decidable (∀ u ∈ t.subterms, u.alternatives.Pairwise _))

theorem distinct_iff : t.Distinct ↔
    t.alternatives.Pairwise (fun x y => x.equiv y = false ∧ y.equiv x = false) ∧ ∀ c ∈ t.children, c.Distinct :=
  forall_subterms_iff

theorem Distinct.child {c : Ty} (h : t.Distinct) (hc : c ∈ t.children) : c.Distinct :=
  (distinct_iff.mp h).2 c hc

/-- **Where no counterpart is shared none is left over**, if there are as many on both sides. -/
theorem exists_counterpart (hlength : xs.length = ys.length) (hR : ∀ x ∈ xs, ∃ y ∈ ys, R x y)
    (hshared : xs.Pairwise fun x x' => ∀ y, R x y → ¬R x' y) : ∀ y ∈ ys, ∃ x ∈ xs, R x y := by
  induction xs generalizing ys with
  | nil =>
    intro y hy
    rw [length_eq_zero_iff.mp hlength.symm] at hy
    cases hy
  | cons x xs ih =>
    obtain ⟨⟨y₀, hy₀, hx⟩, hxs⟩ := forall_mem_cons.mp hR
    obtain ⟨hfirst, hrest⟩ := pairwise_cons.mp hshared
    have hremaining : ∀ x' ∈ xs, ∃ y ∈ ys.erase y₀, R x' y := by
      intro x' hx'
      obtain ⟨y, hy, hxy⟩ := hxs x' hx'
      have hne : y ≠ y₀ := by
        rintro rfl
        exact hfirst x' hx' y hx hxy
      exact ⟨y, (mem_erase_of_ne hne).mpr hy, hxy⟩
    have hcount : xs.length = (ys.erase y₀).length := by
      rw [length_erase_of_mem hy₀, ← hlength, length_cons, Nat.add_sub_cancel]
    intro y hy
    by_cases hyy₀ : y = y₀
    · exact ⟨x, mem_cons_self, hyy₀ ▸ hx⟩
    · obtain ⟨x', hx', hxy⟩ := ih hcount hremaining hrest y ((mem_erase_of_ne hyy₀).mpr hy)
      exact ⟨x', mem_cons_of_mem x hx', hxy⟩

/-- **From a distinct type equivalence can be turned round.** -/
theorem Distinct.equiv_symm (ht : t.Distinct) (h : t.equiv u = true) : u.equiv t = true := by
  induction t using Ty.rigidly generalizing u with
  | var w =>
    obtain ⟨w', rfl, hid⟩ := var_of_equiv h
    exact decide_eq_true hid.symm
  | rigid t hrigid ih =>
    rw [(hrigid.of_equiv h).equiv_iff]
    rw [hrigid.equiv_iff] at h
    have hback : Congruent (fun x y => y.equiv x = true) t u :=
      h.mono fun x hx y _ hxy => ih x hx (ht.child hx) hxy
    exact hback.flip fun _ _ hyx => hyx
  | union xs ih =>
    obtain ⟨ys, rfl⟩ := union_of_equiv h
    rw [equiv_union_iff] at h ⊢
    refine ⟨h.1.symm, fun y hy => ?_⟩
    have hshared : xs.Pairwise fun x x' => ∀ y, x.equiv y = true → ¬x'.equiv y = true := by
      refine List.Pairwise.imp_of_mem ?_ (distinct_iff.mp ht).1
      intro x x' _ hx' hdistinct y hxy hx'y
      rw [equiv_trans hxy (ih x' hx' (ht.child hx') hx'y)] at hdistinct
      cases hdistinct.1
    obtain ⟨x, hx, hxy⟩ := exists_counterpart h.1 h.2 hshared y hy
    exact ⟨x, hx, ih x hx (ht.child hx) hxy⟩

/-! ## Types that are not distinct -/

variable {n : String}

theorem congruent_mapChildren {f : Ty → Ty} (ht : t.IsRigid) (h : ∀ c ∈ t.children, R c (f c)) :
    Congruent R t (t.mapChildren f) := by
  rw [congruent_iff, shape_mapChildren, children_mapChildren, forall₂_map_right_iff]
  exact ⟨ht, rfl, forall₂_same.mpr h⟩

/-- Children can be replaced by equivalent ones. -/
theorem equiv_mapChildren {f : Ty → Ty} (h : ∀ c ∈ t.children, c.equiv (f c) = true) :
    t.equiv (t.mapChildren f) = true := by
  cases ht : t with
  | union ms =>
    subst ht
    exact equiv_union_iff.mpr ⟨(length_map f).symm, fun m hm => ⟨f m, mem_map_of_mem hm, h m hm⟩⟩
  | var v => exact equiv_refl _
  | _ =>
    have hrigid : t.IsRigid := by
      rw [ht]
      exact trivial
    rw [← ht, hrigid.equiv_iff]
    exact congruent_mapChildren hrigid h

theorem exists_of_forall₂ (h : Forall₂ R xs ys) {x : Ty} (hx : x ∈ xs) : ∃ y ∈ ys, R x y := by
  induction h with
  | nil => cases hx
  | cons hxy _ ih =>
    rcases mem_cons.mp hx with rfl | hx
    · exact ⟨_, mem_cons_self, hxy⟩
    · obtain ⟨y, hy, hxy⟩ := ih hx
      exact ⟨y, mem_cons_of_mem _ hy, hxy⟩

/-- **A name in a type is in every type it is equivalent to.** -/
theorem simple_mem_of_equiv (h : t.equiv u = true) (hn : simple n ∈ t.subterms) : simple n ∈ u.subterms := by
  induction t using Ty.rigidly generalizing u with
  | var v => cases mem_singleton.mp hn
  | rigid t ht ih =>
    have hparts := ht.congruent h
    rcases mem_subterms_iff.mp hn with rfl | ⟨c, hc, hn⟩
    · cases u with
      | simple m =>
        obtain rfl : n = m := hparts
        exact hn
      | _ => exact hparts.elim
    · obtain ⟨d, hd, hcd⟩ := exists_of_forall₂ (congruent_iff.mp hparts).2.2 hc
      exact mem_subterms_iff.mpr (Or.inr ⟨d, hd, ih c hc hcd hn⟩)
  | union ms ih =>
    obtain ⟨ns, rfl⟩ := union_of_equiv h
    rcases mem_subterms_iff.mp hn with hself | ⟨m, hm, hn⟩
    · cases hself
    · obtain ⟨m', hm', hequiv⟩ := (equiv_union_iff.mp h).2 m hm
      exact mem_subterms_iff.mpr (Or.inr ⟨m', hm', ih m hm hequiv hn⟩)

/-- The type with one child replaced, wherever it stands. -/
def replaceChild (t c d : Ty) : Ty :=
  t.mapChildren fun m => if m = c then d else m

variable {c d : Ty}

theorem mem_replaceChild (hc : c ∈ t.children) : d ∈ (t.replaceChild c d).children := by
  rw [replaceChild, children_mapChildren]
  exact mem_map.mpr ⟨c, hc, if_pos rfl⟩

theorem child_of_replaceChild {m : Ty} (hm : m ∈ (t.replaceChild c d).children) : m = d ∨ m ∈ t.children := by
  rw [replaceChild, children_mapChildren] at hm
  obtain ⟨m', hm', rfl⟩ := mem_map.mp hm
  split
  · exact Or.inl rfl
  · exact Or.inr hm'

theorem isUnion_replaceChild : (t.replaceChild c d).isUnion = t.isUnion := by
  cases t <;> rfl

/-- **Unions stay in normal form** if the new child is in normal form, is none of the others, and is a union only
    if the old one was. -/
theorem Proper.replaceChild (ht : t.Proper) (hd : d.Proper) (hnew : d ∉ t.children) (hunion : d.isUnion = c.isUnion)
    (hc : c ∈ t.children) : (t.replaceChild c d).Proper := by
  refine proper_iff.mpr ⟨fun ms hms => ?_, fun m hm => ?_⟩
  · cases t with
    | union ns =>
      obtain ⟨htwo, hnodup, hflat⟩ := (proper_iff.mp ht).1 ns rfl
      obtain rfl : ns.map (fun m => if m = c then d else m) = ms := by
        injection hms
      refine ⟨by rwa [length_map], hnodup.map_on ?_, forall_mem_map.mpr fun m hm => ?_⟩
      · intro x hx y hy hxy
        by_cases hxc : x = c <;> by_cases hyc : y = c
        · rw [hxc, hyc]
        · rw [if_pos hxc, if_neg hyc] at hxy
          exact absurd (hxy ▸ hy) hnew
        · rw [if_neg hxc, if_pos hyc] at hxy
          exact absurd (hxy ▸ hx) hnew
        · rwa [if_neg hxc, if_neg hyc] at hxy
      · split
        · exact hunion.trans (hflat c hc)
        · exact hflat m hm
    | _ => cases hms
  · rcases child_of_replaceChild hm with rfl | hm
    · exact hd
    · exact ht.child hm

/-- **A type in normal form with a name in it**, of the variables of another one and like it as a member of unions. -/
structure Marked (n : String) (t u : Ty) : Prop where
  mark : simple n ∈ u.subterms
  proper : u.Proper
  vars : u.vars ⊆ t.vars
  isUnion : u.isUnion = t.isUnion

/-- Where a child is replaced by one with a new name in it, the new name is in the type. -/
theorem Marked.replaceChild (h : Marked n c d) (ht : t.Proper) (hn : simple n ∉ t.subterms) (hc : c ∈ t.children) :
    Marked n t (t.replaceChild c d) := by
  have hnew : d ∉ t.children := fun hd => hn (mem_subterms_iff.mpr (Or.inr ⟨d, hd, h.mark⟩))
  refine ⟨?_, ht.replaceChild h.proper hnew h.isUnion hc, fun v hv => ?_, isUnion_replaceChild⟩
  · exact mem_subterms_iff.mpr (Or.inr ⟨d, mem_replaceChild hc, h.mark⟩)
  · rcases mem_vars_iff.mp hv with hself | ⟨m, hm, hvm⟩
    · -- a variable has no children to replace
      cases t with
      | var w => cases hc
      | _ => cases hself
    · rcases child_of_replaceChild hm with rfl | hm
      · exact mem_vars_of_child hc (h.vars hvm)
      · exact mem_vars_of_child hm hvm

/-- Where members are not all inequivalent, one of them is equivalent to another. -/
theorem exists_redundant {ms : List Ty} (hnodup : ms.Nodup)
    (h : ¬ms.Pairwise fun x y => x.equiv y = false ∧ y.equiv x = false) :
    ∃ x ∈ ms, ∃ y ∈ ms, y ≠ x ∧ x.equiv y = true := by
  by_contra hnone
  push Not at hnone
  refine h (hnodup.pairwise_of_forall_ne fun x hx y hy hne => ⟨?_, ?_⟩)
  · exact Bool.eq_false_iff.mpr (hnone x hx y hy hne.symm)
  · exact Bool.eq_false_iff.mpr (hnone y hy x hx hne)

/-- **From a type that is not distinct there is an equivalence that cannot be turned round**: to a type with a name in
    it that is new, in the place of a member that is equivalent to another one. -/
theorem exists_unsymmetric (ht : t.Proper) (hn : simple n ∉ t.subterms) (h : ¬t.Distinct) :
    ∃ u, Marked n t u ∧ t.equiv u = true ∧ u.equiv t = false := by
  suffices hmarked : ∃ u, Marked n t u ∧ t.equiv u = true by
    obtain ⟨u, hu, hequiv⟩ := hmarked
    exact ⟨u, hu, hequiv, Bool.eq_false_iff.mpr fun hback => hn (simple_mem_of_equiv hback hu.mark)⟩
  induction t using Ty.childwise with
  | step t ih =>
    by_cases hchildren : ∀ c ∈ t.children, c.Distinct
    · -- the redundant member is one of the type itself
      have htop := fun hpairwise => h (distinct_iff.mpr ⟨hpairwise, hchildren⟩)
      cases t with
      | union ms =>
        obtain ⟨-, hnodup, hflat⟩ := (proper_iff.mp ht).1 ms rfl
        obtain ⟨x, hx, y, hy, hne, hxy⟩ := exists_redundant hnodup htop
        have hmark : Marked n x (simple n) :=
          ⟨self_mem_subterms _, proper_of_rigid trivial (by simp [children]), by simp [vars], (hflat x hx).symm⟩
        refine ⟨_, hmark.replaceChild ht hn hx, equiv_union_iff.mpr ⟨(length_map _).symm, fun m hm => ?_⟩⟩
        by_cases hmx : m = x
        · exact ⟨y, mem_map.mpr ⟨y, hy, if_neg hne⟩, hmx ▸ hxy⟩
        · exact ⟨m, mem_map.mpr ⟨m, hm, if_neg hmx⟩, equiv_refl m⟩
      | _ => exact absurd (pairwise_singleton _ _) htop
    · push Not at hchildren
      obtain ⟨c, hc, hdistinct⟩ := hchildren
      obtain ⟨d, hd, hcd⟩ := ih c hc (ht.child hc) (fun hmem => hn (mem_subterms_iff.mpr (Or.inr ⟨c, hc, hmem⟩)))
        hdistinct
      refine ⟨_, hd.replaceChild ht hn hc, equiv_mapChildren fun m _ => ?_⟩
      by_cases hmc : m = c
      · rw [if_pos hmc, hmc]
        exact hcd
      · rw [if_neg hmc]
        exact equiv_refl m

theorem exists_new_name (t : Ty) : ∃ n, simple n ∉ t.subterms := by
  obtain ⟨n, hn⟩ := Infinite.exists_notMem_finset (t.subterms.filterMap name?).toFinset
  refine ⟨n, fun hmem => hn ?_⟩
  exact mem_toFinset.mpr (mem_filterMap.mpr ⟨simple n, hmem, rfl⟩)

end Ty

/-! ## Equivalence under bindings -/

/-- Types in normal form whose variables are unbound are seen as they are. -/
theorem Arena.expose_of_proper {a : Arena} (ha : a.Acyclic) {t : Ty} (ht : t.Proper)
    (hvars : ∀ v ∈ t.vars, a.binding? v.id = none) : a.expose t = t := by
  rw [expose_unfold ha, Ty.subst_congr fun v hv => value_unbound (hvars v hv), ht.subst_var]

/-- **How far equivalence is an equivalence.** It is reflexive and transitive. It can be turned round from a type in
    which no union has two members one of which is equivalent to the other, and from no other type: then there is a
    type of the same variables that it is equivalent to and that is not equivalent to it. -/
theorem equivalence_turns_round_iff_distinct {a : Arena} (hacyclic : a.Acyclic) (ha : a.Solid) :
    (∀ t, a.equivalent t t = true) ∧
    (∀ t u v, a.equivalent t u = true → a.equivalent u v = true → a.equivalent t v = true) ∧
    ∀ t : Ty, t.Solid →
      ((a.expose t).Distinct → ∀ u, a.equivalent t u = true → a.equivalent u t = true) ∧
      (¬(a.expose t).Distinct → ∃ u : Ty, u.Solid ∧ u.vars ⊆ (a.expose t).vars ∧
        a.equivalent t u = true ∧ a.equivalent u t = false) := by
  refine ⟨fun t => Ty.equiv_refl _, fun t u v => Ty.equiv_trans, fun t ht => ?_⟩
  refine ⟨fun hdistinct u => hdistinct.equiv_symm, ?_⟩
  intro hdistinct
  obtain ⟨n, hn⟩ := Ty.exists_new_name (a.expose t)
  obtain ⟨u, hu, hequiv, hback⟩ := Ty.exists_unsymmetric (ha.proper_expose ht) hn hdistinct
  have hexposed : a.expose u = u :=
    Arena.expose_of_proper hacyclic hu.proper fun v hv => Arena.unbound_of_mem_expose hacyclic (hu.vars hv)
  refine ⟨u, hu.proper.solid, hu.vars, ?_, ?_⟩
  · rw [Arena.equivalent, hexposed]
    exact hequiv
  · rw [Arena.equivalent, hexposed]
    exact hback

/-- A function from a variable that is bound to a union, and a union of two such functions. -/
theorem equivalence_turns_round_iff_distinct_functions :
    let x : TyVar := ⟨0, "x"⟩
    let a : Arena := ⟨#[⟨"x", some (.union [.integer, .string])⟩], [0]⟩
    let f : Ty := .func (.var x) .boolean
    let g : Ty := .func (.union [.string, .integer]) .boolean
    a.equivalent f g = true ∧ a.equivalent g f = true ∧ ¬(a.expose (.union [f, g])).Distinct ∧
      ∃ u : Ty, u.Solid ∧ u.vars ⊆ (a.expose (.union [f, g])).vars ∧
        a.equivalent (.union [f, g]) u = true ∧ a.equivalent u (.union [f, g]) = false := by
  intro x a f g
  have hbound : ∀ id u, a.binding? id = some u → u = .union [.integer, .string] := by
    rintro (_ | id) u hu
    · cases hu
      rfl
    · cases hu
  have hacyclic : a.Acyclic := by
    refine Arena.acyclic_of_decreasing fun id u hu v hv => ?_
    rw [hbound id u hu] at hv
    cases hv
  have ha : a.Solid := by
    intro id u hu
    rw [hbound id u hu]
    decide +kernel
  obtain ⟨-, -, hturn⟩ := equivalence_turns_round_iff_distinct hacyclic ha
  have hfg : a.equivalent f g = true := by
    decide +kernel
  have hshared : ¬(a.expose (.union [f, g])).Distinct := by
    decide +kernel
  exact ⟨hfg, (hturn f (by decide +kernel)).1 (by decide +kernel) g hfg, hshared,
    (hturn (.union [f, g]) (by decide +kernel)).2 hshared⟩

/-- **Equivalence is not symmetric.** Two functions from the same alternatives in different orders are members of one
    union. Both have the first member of the other union as their counterpart, and its second member has none. -/
theorem equivalence_is_not_symmetric :
    let a : Arena := (Context.new "main" false).store.arena
    let f : Ty := .func (.union [.integer, .string]) .boolean
    let g : Ty := .func (.union [.string, .integer]) .boolean
    a.Acyclic ∧ a.Solid ∧
      Ty.union? [f, g] = some (.union [f, g]) ∧ Ty.union? [f, .integer] = some (.union [f, .integer]) ∧
      a.equivalent (.union [f, g]) (.union [f, .integer]) = true ∧
      a.equivalent (.union [f, .integer]) (.union [f, g]) = false := by
  intro a f g
  have hnone : ∀ id u, a.binding? id ≠ some u := by
    intro id u hu
    rw [Context.binding?_new "main" false id] at hu
    cases hu
  exact ⟨Arena.acyclic_of_decreasing fun id u hu => absurd hu (hnone id u), fun id u hu => absurd hu (hnone id u),
    by decide +kernel, by decide +kernel, by decide +kernel, by decide +kernel⟩

end UnionTyping
