import UnionTyping.Proofs.Acyclic
import Mathlib.Data.List.Forall2

/-!
# `Proofs.Alike` — types that differ in their variables only

When the same expression is typed twice, in contexts where different numbers of variables have been handed out
before, the types that come up differ, but only in which variables they have. Two types are *alike* over a relation
between variables if they are built in the same way, from variables that are related (`Ty.Alike`). Where each variable
has one partner at most (`Pairing`), the relation tells equal from different just as well, and so every question that
is asked of types has the same answer on both sides. Two arenas are alike if related variables are unbound on both
sides or bound to types that are alike (`Arena.Alike`); then types that are alike expose to types that are alike.

Sums, records and placeholders have no place here, for the language has no way to declare any.
-/

namespace UnionTyping

open List

/-! ## Lists, element by element -/

section Lists

variable {α β : Type} {R : α → β → Prop} {xs : List α} {ys : List β}

theorem forall₂_of_mem {S : α → β → Prop} (h : Forall₂ R xs ys) (himp : ∀ x ∈ xs, ∀ y, R x y → S x y) :
    Forall₂ S xs ys := by
  refine (forall₂_and_left xs ys |>.mpr ⟨himp, h⟩).imp fun x y hxy => ?_
  exact hxy.1 y hxy.2

theorem forall_of_forall₂ {P : α → Prop} (h : Forall₂ R xs ys) (himp : ∀ x y, R x y → P x) : ∀ x ∈ xs, P x :=
  ((forall₂_and_left xs ys).mp (h.imp fun x y hxy => ⟨himp x y hxy, hxy⟩)).1

theorem eq_of_forall₂ {zs : List β} (h : Forall₂ (fun x y => ∀ {z}, R x z → y = z) xs ys)
    (h' : Forall₂ R xs zs) : ys = zs := by
  induction h generalizing zs with
  | nil =>
    cases h' with
    | nil => rfl
  | cons hx _ ih =>
    cases h' with
    | cons hz hzs => rw [hx hz, ih hzs]

theorem any_of_forall₂ (h : Forall₂ R xs ys) {p : α → Bool} {q : β → Bool}
    (hpq : ∀ x ∈ xs, ∀ y, R x y → p x = q y) : xs.any p = ys.any q := by
  induction h with
  | nil => rfl
  | cons hxy _ ih =>
    obtain ⟨hx, hxs⟩ := forall_mem_cons.mp hpq
    rw [any_cons, any_cons, hx _ hxy, ih hxs]

theorem all_of_forall₂ (h : Forall₂ R xs ys) {p : α → Bool} {q : β → Bool}
    (hpq : ∀ x ∈ xs, ∀ y, R x y → p x = q y) : xs.all p = ys.all q := by
  induction h with
  | nil => rfl
  | cons hxy _ ih =>
    obtain ⟨hx, hxs⟩ := forall_mem_cons.mp hpq
    rw [all_cons, all_cons, hx _ hxy, ih hxs]

/-- A relation that is one to one carries membership over. -/
theorem contains_of_forall₂ [BEq α] [LawfulBEq α] [BEq β] [LawfulBEq β] (hR : Relator.BiUnique R)
    (h : Forall₂ R xs ys) {x : α} {y : β} (hxy : R x y) : xs.contains x = ys.contains y := by
  rw [Bool.eq_iff_iff, contains_iff_mem, contains_iff_mem]
  exact rel_mem hR hxy h

/-- **Repetitions are found in the same places**, where related elements have no other partners. -/
theorem forall₂_eraseDups [BEq α] [LawfulBEq α] [BEq β] [LawfulBEq β] (hR : Relator.BiUnique R)
    (h : Forall₂ R xs ys) : Forall₂ R xs.eraseDups ys.eraseDups := by
  generalize hn : xs.length = n
  induction n using Nat.strongRecOn generalizing xs ys with
  | ind n ih =>
    cases h with
    | nil => exact .nil
    | @cons x y xs ys hxy hrest =>
      rw [eraseDups_cons, eraseDups_cons]
      have hfilter : Forall₂ R (xs.filter fun z => !z == x) (ys.filter fun z => !z == y) := by
        refine rel_filter ?_ hrest
        intro z w hzw
        have hiff := Relator.rel_eq hR hzw hxy
        simp [hiff]
      refine .cons hxy (ih _ ?_ hfilter rfl)
      have hle := length_filter_le (fun z => !z == x) xs
      rw [← hn, length_cons]
      omega

/-- A map that keeps elements apart keeps the first of equal ones. -/
theorem eraseDups_map [BEq α] [LawfulBEq α] [BEq β] [LawfulBEq β] {f : α → β}
    (hf : ∀ x ∈ xs, ∀ y ∈ xs, f x = f y → x = y) : (xs.map f).eraseDups = xs.eraseDups.map f := by
  have hunique : Relator.BiUnique fun x y => x ∈ xs ∧ f x = y :=
    ⟨fun x z y hx hz => hf x hx.1 z hz.1 (hx.2.trans hz.2.symm), fun _ _ _ hy hz => hy.2.symm.trans hz.2⟩
  have hpairs : Forall₂ (fun x y => x ∈ xs ∧ f x = y) xs (xs.map f) :=
    forall₂_map_right_iff.mpr (forall₂_same.mpr fun x hx => ⟨hx, rfl⟩)
  have hkept := (forall₂_eraseDups hunique hpairs).imp fun x y hxy => hxy.2
  rw [← forall₂_map_left_iff, forall₂_eq_eq_eq] at hkept
  exact hkept.symm

end Lists

/-! ## Pairs of variables -/

/-- **Each variable has one partner at most**, and its number is that of no other. -/
structure Pairing (R : TyVar → TyVar → Prop) : Prop where
  left : ∀ {v v' w w'}, R v w → R v' w' → v.id = v'.id → v = v' ∧ w = w'
  right : ∀ {v v' w w'}, R v w → R v' w' → w.id = w'.id → v = v' ∧ w = w'

namespace Pairing

variable {R : TyVar → TyVar → Prop} (hR : Pairing R)
include hR

theorem biUnique : Relator.BiUnique R :=
  ⟨fun _ _ _ h h' => (hR.right h h' rfl).1, fun _ _ _ h h' => (hR.left h h' rfl).2⟩

theorem symm : Pairing (flip R) :=
  ⟨fun h h' hid => (hR.right h h' hid).symm, fun h h' hid => (hR.left h h' hid).symm⟩

/-- Variables that are paired have equal numbers on both sides or on neither. -/
theorem id_eq_iff {v v' w w' : TyVar} (h : R v w) (h' : R v' w') : v.id = v'.id ↔ w.id = w'.id :=
  ⟨fun hid => congrArg TyVar.id (hR.left h h' hid).2, fun hid => congrArg TyVar.id (hR.right h h' hid).1⟩

end Pairing

/-! ## Types -/

/-- **The types are built in the same way**, from related variables. -/
inductive Ty.Alike (R : TyVar → TyVar → Prop) : Ty → Ty → Prop where
  | simple (n : String) : Alike R (.simple n) (.simple n)
  | func {a b r t : Ty} : Alike R a b → Alike R r t → Alike R (.func a r) (.func b t)
  | union {xs ys : List Ty} : Forall₂ (Alike R) xs ys → Alike R (.union xs) (.union ys)
  | var {v w : TyVar} : R v w → Alike R (.var v) (.var w)

/-- Each of the first members has an equivalent one among the second. -/
theorem Ty.equivMembers_eq_all (xs ys : List Ty) :
    Ty.equivMembers xs ys = xs.all fun x => ys.any fun y => x.equiv y := by
  induction xs with
  | nil => rfl
  | cons x xs ih => rw [Ty.equivMembers, ih, all_cons]

namespace Ty.Alike

variable {R S : TyVar → TyVar → Prop} {t u : Ty}

/-- **Induction over two types that are alike.** -/
@[elab_as_elim]
theorem structural {motive : Ty → Ty → Prop} (simple : ∀ n, motive (.simple n) (.simple n))
    (func : ∀ {a b r t}, Alike R a b → Alike R r t → motive a b → motive r t → motive (.func a r) (.func b t))
    (union : ∀ {xs ys}, Forall₂ (Alike R) xs ys → Forall₂ motive xs ys → motive (.union xs) (.union ys))
    (var : ∀ {v w}, R v w → motive (.var v) (.var w)) (h : Alike R t u) : motive t u := by
  induction t using Ty.structural generalizing u with
  | simple n =>
    cases h with
    | simple => exact simple n
  | func a r ha hr =>
    cases h with
    | func h h' => exact func h h' (ha h) (hr h')
  | record n as fs => cases h
  | algebraic n as os => cases h
  | recursive n as => cases h
  | union ms ih =>
    cases h with
    | union h => exact union h (forall₂_of_mem h fun m hm _ => ih m hm)
  | var v =>
    cases h with
    | var h => exact var h

theorem mono (h : Alike R t u) (hRS : ∀ v w, R v w → S v w) : Alike S t u :=
  structural .simple (fun _ _ ha hr => .func ha hr) (fun _ ih => .union ih) (fun h => .var (hRS _ _ h)) h

theorem symm (h : Alike R t u) : Alike (flip R) u t :=
  structural .simple (fun _ _ ha hr => .func ha hr) (fun _ ih => .union ih.flip) (fun h => .var h) h

/-- A type is alike to one type at most, if every variable has at most one partner. -/
theorem rightUnique (hR : Relator.RightUnique R) : Relator.RightUnique (Alike R) := by
  intro t u u' h
  refine structural (motive := fun t u => ∀ {u'}, Alike R t u' → u = u') ?simple ?func ?union ?var h
  case simple =>
      rintro n _ ⟨⟩
      rfl
  case func =>
      rintro a b r t - - ha hr _ (_ | ⟨h, h'⟩)
      rw [ha h, hr h']
  case union =>
      rintro xs ys - ih _ (_ | _ | h')
      exact congrArg Ty.union (eq_of_forall₂ ih h')
  case var =>
      rintro v w h _ (_ | _ | _ | h')
      rw [hR h h']

theorem biUnique (hR : Relator.BiUnique R) : Relator.BiUnique (Alike R) := by
  have hflip : Relator.RightUnique (flip R) := fun v w w' h h' => hR.1 h h'
  exact ⟨fun t t' u h h' => rightUnique hflip h.symm h'.symm, rightUnique hR.2⟩

/-- Only the pairs whose variables occur are needed. -/
theorem restrictLeft (h : Alike R t u) : Alike (fun v w => R v w ∧ v ∈ t.vars) t u := by
  refine structural (motive := fun t u => Alike (fun v w => R v w ∧ v ∈ t.vars) t u) (fun n => .simple n) ?func
    ?union ?var h
  case func =>
      intro a b r t _ _ ha hr
      refine .func (ha.mono fun v w hvw => ⟨hvw.1, ?_⟩) (hr.mono fun v w hvw => ⟨hvw.1, ?_⟩)
      · exact mem_vars_of_child (by simp [Ty.children]) hvw.2
      · exact mem_vars_of_child (by simp [Ty.children]) hvw.2
  case union =>
      intro xs ys _ ih
      refine .union (forall₂_of_mem ih fun x hx y hxy => hxy.mono fun v w hvw => ⟨hvw.1, ?_⟩)
      exact mem_vars_of_child hx hvw.2
  case var => exact fun hvw => .var ⟨hvw, mem_singleton.mpr rfl⟩

/-- Only the variables of the types matter. -/
theorem restrict (h : Alike R t u) : Alike (fun v w => R v w ∧ v ∈ t.vars ∧ w ∈ u.vars) t u :=
  h.restrictLeft.symm.restrictLeft.symm.mono fun _ _ hvw => ⟨hvw.1.1, hvw.1.2, hvw.2⟩

/-- Types that are alike have the same form. -/
theorem isFunc (h : Alike R t u) : t.isFunc = u.isFunc := by
  cases h <;> rfl

theorem children (h : Alike R t u) : Forall₂ (Alike R) t.children u.children := by
  cases h with
  | simple => exact .nil
  | func h h' => exact .cons h (.cons h' .nil)
  | union h => exact h
  | var => exact .nil

theorem alternatives (h : Alike R t u) : Forall₂ (Alike R) t.alternatives u.alternatives := by
  cases h with
  | simple n => exact .cons (.simple n) .nil
  | func h h' => exact .cons (.func h h') .nil
  | union h => exact h
  | var h => exact .cons (.var h) .nil

theorem subterms (h : Alike R t u) : Forall₂ (Alike R) t.subterms u.subterms := by
  refine structural (fun n => .cons (.simple n) .nil) ?func ?union (fun h => .cons (.var h) .nil) h
  case func => exact fun ha hr iha ihr => .cons (.func ha hr) (rel_append iha ihr)
  case union =>
      intro xs ys h ih
      simp only [Ty.subterms, subtermsList_eq_flatMap]
      exact .cons (.union h) (rel_flatMap ih fun _ _ h => h)

theorem vars (h : Alike R t u) : Forall₂ R t.vars u.vars := by
  refine structural (fun _ => .nil) (fun _ _ ha hr => rel_append ha hr) ?union (fun h => .cons h .nil) h
  intro xs ys _ ih
  simp only [Ty.vars, varsList_eq_flatMap]
  exact rel_flatMap ih fun _ _ h => h

section Pairing

variable {t' u' : Ty} {ts us : List Ty} (hR : Pairing R)
include hR

/-- **There is a union on both sides or on neither.** -/
theorem union? (h : Forall₂ (Alike R) ts us) : Option.Rel (Alike R) (Ty.union? ts) (Ty.union? us) := by
  have hmembers := forall₂_eraseDups (biUnique hR.biUnique) (rel_flatMap h fun _ _ h => h.alternatives)
  unfold Ty.union?
  generalize (ts.flatMap Ty.alternatives).eraseDups = xs at hmembers
  generalize (us.flatMap Ty.alternatives).eraseDups = ys at hmembers
  cases hmembers with
  | nil => exact .none
  | cons hx hrest =>
    cases hrest with
    | nil => exact .some hx
    | cons hy hmore => exact .some (.union (.cons hx (.cons hy hmore)))

/-- Joining throws out members that are equal, and these are equal on both sides. -/
theorem join (h : Forall₂ (Alike R) ts us) : Alike R (Ty.join ts) (Ty.join us) := by
  have hunion := union? hR h
  unfold Ty.join
  generalize Ty.union? ts = x at hunion
  generalize Ty.union? us = y at hunion
  cases hunion with
  | none => exact .union h
  | some h => exact h

/-- **Replacing related variables by types that are alike.** -/
theorem subst {f g : TyVar → Ty} (h : Alike S t u) (hfg : ∀ v w, S v w → Alike R (f v) (g w)) :
    Alike R (t.subst f) (u.subst g) := by
  refine structural .simple (fun _ _ ha hr => .func ha hr) ?union (fun h => hfg _ _ h) h
  intro xs ys _ ih
  simp only [Ty.subst, substList_eq_map]
  exact join hR (forall₂_map_left_iff.mpr (forall₂_map_right_iff.mpr ih))

/-- **Equivalence has the same answer on both sides.** -/
theorem equiv (h : Alike R t u) (h' : Alike R t' u') : t.equiv t' = u.equiv u' := by
  refine structural (motive := fun t u => ∀ {t' u'}, Alike R t' u' → t.equiv t' = u.equiv u') ?simple ?func ?union
    ?var h h'
  case simple =>
      intro n t' u' h'
      cases h' <;> rfl
  case func =>
      intro a b r t _ _ ha hr t' u' h'
      cases h' with
      | func h h' => rw [Ty.equiv, Ty.equiv, ha h, hr h']
      | _ => rfl
  case union =>
      intro xs ys h ih t' u' h'
      cases h' with
      | union h' =>
        rw [Ty.equiv, Ty.equiv, equivMembers_eq_all, equivMembers_eq_all, h.length_eq, h'.length_eq]
        congr 1
        exact all_of_forall₂ ih fun x _ y hxy => any_of_forall₂ h' fun x' _ y' hxy' => hxy hxy'
      | _ => rfl
  case var =>
      intro v w h t' u' h'
      cases h' with
      | var h' => exact decide_eq_decide.mpr (hR.id_eq_iff h h')
      | _ => rfl

theorem occursIn (h : Alike R t u) (h' : Alike R t' u') : t.occursIn t' = u.occursIn u' := by
  rw [Ty.occursIn, Ty.occursIn]
  exact contains_of_forall₂ (biUnique hR.biUnique) h'.subterms h

end Pairing
end Ty.Alike

/-! ## Arenas -/

/-- **Related variables are unbound on both sides**, or bound to types that are alike. -/
def Arena.Alike (R : TyVar → TyVar → Prop) (a b : Arena) : Prop :=
  ∀ v w, R v w → Option.Rel (Ty.Alike R) (a.binding? v.id) (b.binding? w.id)

namespace Arena.Alike

variable {R : TyVar → TyVar → Prop} {a b : Arena} {v w : TyVar}

/-- Paired variables are unbound on both sides, or bound to types that are alike. -/
theorem binding_cases (h : Alike R a b) (hvw : R v w) :
    (a.binding? v.id = none ∧ b.binding? w.id = none) ∨
      ∃ t u, a.binding? v.id = some t ∧ b.binding? w.id = some u ∧ Ty.Alike R t u := by
  have hrel := h v w hvw
  generalize a.binding? v.id = x at hrel
  generalize b.binding? w.id = y at hrel
  cases hrel with
  | none => exact Or.inl ⟨rfl, rfl⟩
  | some h => exact Or.inr ⟨_, _, rfl, rfl, h⟩

theorem unbound (h : Alike R a b) (hvw : R v w) (hv : a.binding? v.id = none) : b.binding? w.id = none := by
  rcases h.binding_cases hvw with ⟨-, hw⟩ | ⟨t, u, hbound, -, -⟩
  · exact hw
  · cases hv.symm.trans hbound

theorem bound (h : Alike R a b) (hvw : R v w) {t : Ty} (hv : a.binding? v.id = some t) :
    ∃ u, b.binding? w.id = some u ∧ Ty.Alike R t u := by
  rcases h.binding_cases hvw with ⟨hfree, -⟩ | ⟨t', u, hbound, hw, htu⟩
  · cases hv.symm.trans hfree
  · obtain rfl : t = t' := Option.some.inj (hv.symm.trans hbound)
    exact ⟨u, hw, htu⟩

theorem symm (h : Alike R a b) : Alike (flip R) b a := by
  intro w v hvw
  rcases h.binding_cases hvw with ⟨hv, hw⟩ | ⟨t, u, hv, hw, htu⟩
  · rw [hv, hw]
    exact .none
  · rw [hv, hw]
    exact .some htu.symm

end Arena.Alike

/-- **The arenas look the same through a pairing of variables**, and looking through bindings comes to an end. -/
structure Arena.Mirrors (R : TyVar → TyVar → Prop) (a b : Arena) : Prop where
  pairing : Pairing R
  bindings : Alike R a b
  leftAcyclic : a.Acyclic
  rightAcyclic : b.Acyclic

namespace Arena.Mirrors

variable {R : TyVar → TyVar → Prop} {a b : Arena} {t u t' u' : Ty} (h : Mirrors R a b)
include h

theorem symm : Mirrors (flip R) b a :=
  ⟨h.pairing.symm, h.bindings.symm, h.rightAcyclic, h.leftAcyclic⟩

theorem value {v w : TyVar} (hvw : R v w) : Ty.Alike R (a.value v) (b.value w) := by
  induction v using h.leftAcyclic.induction generalizing w with
  | unbound v hv =>
    rw [value_unbound hv, value_unbound (h.bindings.unbound hvw hv)]
    exact .var hvw
  | bound v t hv ih =>
    obtain ⟨u, hw, htu⟩ := h.bindings.bound hvw hv
    rw [value_bound hv, value_bound hw, expose_unfold h.leftAcyclic, expose_unfold h.rightAcyclic]
    exact htu.restrict.subst h.pairing fun x y hxy => ih x hxy.2.1 hxy.1

/-- **Types that are alike expose to types that are alike.** -/
theorem expose (htu : Ty.Alike R t u) : Ty.Alike R (a.expose t) (b.expose u) := by
  rw [expose_unfold h.leftAcyclic, expose_unfold h.rightAcyclic]
  exact htu.subst h.pairing fun v w hvw => h.value hvw

theorem follow (htu : Ty.Alike R t u) : Ty.Alike R (a.follow t) (b.follow u) := by
  -- it is enough to follow variables, since all else is left as it is
  have hfollow : ∀ t u, Ty.Alike R t u →
      (∀ v ∈ t.vars, ∀ w, R v w → Ty.Alike R (a.follow (.var v)) (b.follow (.var w))) →
        Ty.Alike R (a.follow t) (b.follow u) := by
    intro t u htu hvars
    by_cases hx : ∃ x, t = .var x
    · obtain ⟨x, rfl⟩ := hx
      cases htu with
      | var hxy => exact hvars x (mem_singleton.mpr rfl) _ hxy
    · have hne : ∀ w, u ≠ .var w := by
        rintro w rfl
        cases htu with
        | var => exact hx ⟨_, rfl⟩
      rw [follow_of_ne_var fun x hx' => hx ⟨x, hx'⟩, follow_of_ne_var hne]
      exact htu
  suffices hvar : ∀ v w, R v w → Ty.Alike R (a.follow (.var v)) (b.follow (.var w)) from
    hfollow t u htu fun v _ => hvar v
  intro v
  induction v using h.leftAcyclic.induction with
  | unbound v hv =>
    intro w hvw
    rw [follow_unbound hv, follow_unbound (h.bindings.unbound hvw hv)]
    exact .var hvw
  | bound v t hv ih =>
    intro w hvw
    obtain ⟨u, hw, htu⟩ := h.bindings.bound hvw hv
    rw [follow_bound h.leftAcyclic hv, follow_bound h.rightAcyclic hw]
    exact hfollow t u htu ih

theorem equivalent (htu : Ty.Alike R t u) (htu' : Ty.Alike R t' u') : a.equivalent t t' = b.equivalent u u' :=
  (h.expose htu).equiv h.pairing (h.expose htu')

theorem occursWithin {v w : TyVar} (hvw : R v w) (htu : Ty.Alike R t u) : a.occursWithin v t = b.occursWithin w u := by
  unfold Arena.occursWithin
  exact any_of_forall₂ (h.expose htu).children fun x _ y hxy => Ty.Alike.occursIn h.pairing (.var hvw) hxy

theorem occursIn (htu : Ty.Alike R t u) (htu' : Ty.Alike R t' u') : a.occursIn t t' = b.occursIn u u' :=
  (h.expose htu).occursIn h.pairing (h.expose htu')

theorem decompose (htu : Ty.Alike R t u) : Forall₂ (Ty.Alike R) (a.decompose t) (b.decompose u) := by
  have hexposed := h.expose htu
  unfold Arena.decompose
  generalize a.expose t = x at hexposed
  generalize b.expose u = y at hexposed
  cases hexposed with
  | simple n => exact .cons (.simple n) .nil
  | func h h' => exact .cons (.func h h') .nil
  | union h => exact h
  | var h => exact .cons (.var h) .nil

theorem freeVars (htu : Ty.Alike R t u) : Forall₂ R (a.freeVars t) (b.freeVars u) :=
  forall₂_eraseDups h.pairing.biUnique (h.expose htu).vars

end Arena.Mirrors
end UnionTyping
