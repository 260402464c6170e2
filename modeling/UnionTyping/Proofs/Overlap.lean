import UnionTyping.Proofs.Ordinary
import UnionTyping.Proofs.Settling

/-!
# `Proofs.Overlap` — ground types, and which of them unify

A *ground* type has no variable, no placeholder and no union without members in it. Nothing can be bound when two
ground types are compared, so what a comparison does depends on the two types alone, and not on the order in which
it looks at alternatives or at the two sides.

`Ty.Overlaps` says which types those are, as a relation that is free of the order of steps, of levels and of
bindings: the two are made by the same constructor from parts that overlap, or an alternative of one of them overlaps
with the other. The relation is symmetric (`Ty.Overlaps.symm`), and it does not see whether unions are in normal form
(`Ty.overlaps_subst_var`). A comparison of ground types ends, leaves every variable as it was and succeeds iff
the types overlap (`unify_ground`), in any arena, also one with cycles.
-/

namespace UnionTyping

open List Ty Arena Plan

/-! ## Ground types -/

namespace Ty

/-- **A ground type**: no variable, no placeholder and no union without members occurs in it. -/
structure Ground (t : Ty) : Prop where
  closed : t.vars = []
  explicit : t.Explicit
  solid : t.Solid

theorem ground_iff {t : Ty} : t.Ground ↔ t.vars = [] ∧ t.Explicit ∧ t.Solid :=
  ⟨fun h => ⟨h.closed, h.explicit, h.solid⟩, fun h => ⟨h.1, h.2.1, h.2.2⟩⟩

instance (t : Ty) : Decidable t.Ground :=
  decidable_of_iff _ ground_iff.symm

end Ty

/-- No variable, no placeholder and no union without members. -/
def Fragment.ground : Fragment := ⟨fun _ => False, True, False, False, True⟩

namespace Ty

variable {t u l r : Ty}

theorem in_ground : t.In .ground ↔ t.Ground := by
  constructor
  · intro h
    have hexplicit := in_explicit.mp (h.mono (G := .explicit) ⟨fun _ hv => hv.elim, id, id, id, id⟩)
    exact ⟨eq_nil_iff_forall_not_mem.mpr fun v hv => h.vars hv, hexplicit.2, hexplicit.1⟩
  · intro h
    have hexplicit : t.In (Fragment.ground.withVars fun _ => True) := in_explicit.mpr ⟨h.solid, h.explicit⟩
    refine hexplicit.of_vars fun v hv => ?_
    rw [h.closed] at hv
    cases hv

namespace Ground

theorem child (h : t.Ground) (hu : u ∈ t.children) : u.Ground :=
  in_ground.mp ((in_ground.mpr h).child hu)

theorem alternative (h : t.Ground) (hu : u ∈ t.alternatives) : u.Ground :=
  in_ground.mp ((in_ground.mpr h).alternative hu)

theorem not_mem_vars (h : t.Ground) (v : TyVar) : v ∉ t.vars := by
  rw [h.closed]
  exact not_mem_nil

theorem ne_var (h : t.Ground) (v : TyVar) : t ≠ var v := by
  rintro rfl
  exact h.not_mem_vars v (by simp)

theorem follow (h : t.Ground) (a : Arena) : a.follow t = t :=
  follow_of_ne_var h.ne_var

/-- A ground type looks the same in all arenas: its unions are in normal form. -/
theorem expose (h : t.Ground) (a : Arena) : a.expose t = t.subst .var :=
  exposeWithin_of_within (n := 0) (fun v hv => absurd hv (h.not_mem_vars v)) (Nat.zero_le _)

theorem subst (h : t.Ground) (f : TyVar → Ty) : (t.subst f).Ground := by
  have hin : t.In (Fragment.ground.withVars fun _ => False) := in_ground.mpr h
  exact in_ground.mp (hin.subst fun v hv => absurd hv (h.not_mem_vars v))

/-- The weight of a ground type is its number of nodes, however far one looks. -/
theorem weightWithin (h : t.Ground) (a : Arena) (hops : Nat) : a.weightWithin hops t = t.weigh fun _ => 1 :=
  weightWithin_of_within (n := 0) (fun v hv => absurd hv (h.not_mem_vars v)) (Nat.zero_le _)

/-- A ground type that is found at the top is no heavier, even among cycles. -/
theorem weight_follow_le {a : Arena} (h : (a.follow t).Ground) : a.weight (a.follow t) ≤ a.weight t := by
  have hwithin : ∀ hops (t : Ty), (a.followWithin hops t).Ground →
      a.weightWithin a.size (a.followWithin hops t) ≤ a.weightWithin hops t := by
    intro hops
    induction hops with
    | zero =>
      intro t ht
      rw [ht.weightWithin]
      exact Nat.le_of_eq (ht.weightWithin a 0).symm
    | succ hops ih =>
      intro t ht
      cases t with
      | var v =>
        cases hb : a.binding? v.id with
        | none =>
          rw [followWithin_unbound hb] at ht
          exact absurd rfl (ht.ne_var v)
        | some u =>
          simp only [Arena.followWithin, Arena.weightWithin, weigh, hb] at ht ⊢
          exact Nat.le_trans (ih u ht) (Nat.le_add_left _ _)
      | _ => exact Nat.le_of_eq (by rw [ht.weightWithin, ← ht.weightWithin a (hops + 1)]; rfl)
  exact hwithin a.size t h

/-- The depth that is granted exceeds the weight of what is found at the top. -/
theorem lt_depthFor {a : Arena} {l' r' : Ty} (hl : l'.Ground) (hr : r'.Ground) (hfl : a.follow l = l')
    (hfr : a.follow r = r') : a.weight l' + a.weight r' < a.depthFor l r := by
  subst hfl hfr
  have hleft := hl.weight_follow_le
  have hright := hr.weight_follow_le
  unfold depthFor unfoldingAllowance
  omega

end Ground

/-- Unions in normal form stay as they are. -/
theorem Solid.subst_var_subst_var (h : t.Solid) : (t.subst .var).subst .var = t.subst .var :=
  h.subst_subst (fun v _ => solid_var v) fun v => ⟨solid_var v, normal_var v⟩

/-- **Unrolling does nothing but bring unions into normal form** where there is no placeholder. -/
theorem subst_unrollNamed (name : String) {owner : Ty} (ho : owner.In .explicit) (ht : t.In .explicit) :
    (unrollNamed name owner t).subst .var = t.subst .var := by
  induction t using unrolling name with
  | var v => rfl
  | union ms ih =>
    have hsolid : (union ms).Solid := (in_explicit.mp ht).1
    have hmembers : ∀ m ∈ ms.map (unrollNamed name owner), m.Solid :=
      forall_mem_map.mpr fun m hm => (in_explicit.mp (In.unrollNamed ho (ht.child hm))).1
    have hne : ms.map (unrollNamed name owner) ≠ [] :=
      fun hnil => ht.admits.2 (map_eq_nil_iff.mp hnil)
    obtain ⟨u, hu⟩ := exists_union? hne hmembers
    have hjoined := union?_subst hu hmembers fun v => ⟨solid_var v, normal_var v⟩
    have hsame : ms.map (subst .var ∘ unrollNamed name owner) = ms.map (subst .var) :=
      map_congr_left fun m hm => ih m hm (ht.child hm)
    rw [map_map, hsame, hsolid.union?_map fun v _ => solid_var v] at hjoined
    rw [unrollNamed_union, join, hu, Option.getD_some]
    exact (Option.some.inj hjoined).symm
  | placeholder as => exact ht.admits.elim
  | shadow t hshadow => rw [hshadow.unrollNamed]
  | other t hrigid hname ih =>
    rw [hrigid.unrollNamed hname, (hrigid.mapChildren _).subst_eq, hrigid.subst_eq, mapChildren_mapChildren]
    exact mapChildren_congr fun c hc => ih c hc (ht.child hc)

/-! ## Overlap -/

/-- What a type has to offer against another one: the members of a union, or the options of a sum against one of
    its constructor types. -/
def offers : Ty → Ty → List Ty
  | .union ms, _ => ms
  | .algebraic _ _ os, .simple _ => os
  | .algebraic _ _ os, .record _ _ _ => os
  | _, _ => []

/-- What is offered is part of the type. -/
theorem mem_children_of_offers (h : u ∈ t.offers r) : u ∈ t.children := by
  cases t with
  | union ms => exact h
  | algebraic n as os =>
    cases r with
    | simple m => exact mem_append_right _ h
    | record m bs gs => exact mem_append_right _ h
    | _ => cases h
  | _ => cases h

/-- **Two types overlap**: they are made by the same constructor from parts that overlap, or something that one of
    them offers overlaps with the other. -/
inductive Overlaps : Ty → Ty → Prop where
  | parts {l r : Ty} (R : Ty → Ty → Prop) : Congruent R l r → (∀ x y, R x y → Overlaps x y) → Overlaps l r
  | left {l r x : Ty} : x ∈ l.offers r → Overlaps x r → Overlaps l r
  | right {l r y : Ty} : y ∈ r.offers l → Overlaps l y → Overlaps l r

theorem Overlaps.of_congruent (h : Congruent Overlaps l r) : Overlaps l r :=
  .parts Overlaps h fun _ _ hxy => hxy

theorem overlaps_iff : Overlaps l r ↔
    Congruent Overlaps l r ∨ (∃ x ∈ l.offers r, Overlaps x r) ∨ ∃ y ∈ r.offers l, Overlaps l y := by
  constructor
  · intro h
    cases h with
    | parts R hparts hR => exact Or.inl (hparts.mono fun x _ y _ => hR x y)
    | left hx h => exact Or.inr (Or.inl ⟨_, hx, h⟩)
    | right hy h => exact Or.inr (Or.inr ⟨_, hy, h⟩)
  · rintro (h | ⟨x, hx, h⟩ | ⟨y, hy, h⟩)
    · exact .of_congruent h
    · exact .left hx h
    · exact .right hy h

/-- **Overlap is symmetric.** -/
theorem Overlaps.symm (h : Overlaps l r) : Overlaps r l := by
  induction h with
  | parts R hparts _ ih => exact .parts (fun y x => R x y) (hparts.flip fun _ _ h => h) fun y x => ih x y
  | left hx _ ih => exact .right hx ih
  | right hy _ ih => exact .left hy ih

theorem overlaps_comm : Overlaps l r ↔ Overlaps r l :=
  ⟨.symm, .symm⟩

/-- A union overlaps with what one of its members overlaps with. -/
theorem overlaps_union {ms : List Ty} : Overlaps (union ms) r ↔ ∃ m ∈ ms, Overlaps m r := by
  constructor
  · intro h
    generalize hl : union ms = l at h
    induction h with
    | parts R hparts =>
      subst hl
      exact hparts.elim
    | left hx h =>
      subst hl
      exact ⟨_, hx, h⟩
    | @right l r y hy _ ih =>
      -- only a union offers anything against a union
      subst hl
      cases r with
      | union ns =>
        obtain ⟨m, hm, h⟩ := ih rfl
        exact ⟨m, hm, .right (r := union ns) hy h⟩
      | _ => cases hy
  · rintro ⟨m, hm, h⟩
    exact .left (l := union ms) hm h

theorem overlaps_alternatives : Overlaps t r ↔ ∃ m ∈ t.alternatives, Overlaps m r := by
  cases t with
  | union ms => exact overlaps_union
  | _ => simp [alternatives]

theorem overlaps_join {ms : List Ty} : Overlaps (join ms) r ↔ ∃ m ∈ ms, Overlaps m r := by
  have hflat : (∃ u ∈ (ms.flatMap alternatives).eraseDups, Overlaps u r) ↔ ∃ m ∈ ms, Overlaps m r := by
    constructor
    · rintro ⟨u, hu, h⟩
      obtain ⟨m, hm, hum⟩ := mem_flattened.mp hu
      exact ⟨m, hm, overlaps_alternatives.mpr ⟨u, hum, h⟩⟩
    · rintro ⟨m, hm, h⟩
      obtain ⟨u, hu, h⟩ := overlaps_alternatives.mp h
      exact ⟨u, mem_flattened.mpr ⟨m, hm, hu⟩, h⟩
  unfold join
  cases hunion : union? ms with
  | none => exact overlaps_union
  | some u =>
    rw [← hflat]
    rcases union?_cases hunion with he | ⟨v, vs, rfl, he⟩
    · simp [he]
    · rw [he]
      exact overlaps_union

/-! ### Normal forms -/

/-- What a type that is neither a variable nor a union offers is brought into normal form with it. -/
theorem offers_subst {f : TyVar → Ty} (ht : t.IsRigid) :
    (t.subst f).offers r = (t.offers r).map (subst f) ∧ r.offers (t.subst f) = r.offers t := by
  cases t with
  | union ms => exact ht.elim
  | var v => exact ht.elim
  | algebraic n as os =>
    refine ⟨?_, ?_⟩
    · cases r <;> simp [offers, subst, substList_eq_map]
    · cases r <;> rfl
  | _ => exact ⟨by cases r <;> rfl, by cases r <;> rfl⟩

theorem Overlaps.subst_var (h : Overlaps t r) : Overlaps (t.subst .var) r := by
  induction h with
  | @parts l r R hparts _ ih =>
    have hrigid : l.IsRigid := by
      cases l with
      | union ms => exact hparts.elim
      | var v => exact hparts.elim
      | _ => trivial
    exact .of_congruent ((congruent_subst hrigid).mpr (hparts.mono fun x _ y _ hxy => ih x y hxy))
  | @left l r x hx _ ih =>
    cases l with
    | union ms =>
      rw [subst, substList_eq_map, overlaps_join]
      exact ⟨_, mem_map_of_mem hx, ih⟩
    | algebraic n as os =>
      refine .left (x := x.subst .var) ?_ ih
      rw [(offers_subst (t := algebraic n as os) trivial).1]
      exact mem_map_of_mem hx
    | _ => cases hx
  | @right l r y hy _ ih =>
    refine .right ?_ ih
    cases r with
    | union ms => exact hy
    | algebraic n as os =>
      cases l with
      | simple m => exact hy
      | record m bs gs => exact hy
      | _ => cases hy
    | _ => cases hy

/-- **Overlap does not see whether unions are in normal form.** -/
theorem overlaps_subst_var : Overlaps (t.subst .var) r ↔ Overlaps t r := by
  refine ⟨fun h => ?_, .subst_var⟩
  induction t using rigidly generalizing r with
  | var v => exact h
  | union ms ih =>
    rw [subst, substList_eq_map, overlaps_join] at h
    obtain ⟨u, hu, h⟩ := h
    obtain ⟨m, hm, rfl⟩ := mem_map.mp hu
    exact overlaps_union.mpr ⟨m, hm, ih m hm h⟩
  | rigid t ht ih =>
    -- the members of unions on the right come one by one, while the left stays the same
    generalize hl : t.subst .var = l at h
    induction h with
    | parts R hparts hR =>
      subst hl
      refine .of_congruent (((congruent_subst ht).mp hparts).mono fun x hx y _ hxy => ?_)
      exact ih x hx (hR _ _ hxy)
    | left hx h =>
      subst hl
      rw [(offers_subst ht).1] at hx
      obtain ⟨o, ho, rfl⟩ := mem_map.mp hx
      exact .left ho (ih o (mem_children_of_offers ho) h)
    | right hy _ ihr =>
      subst hl
      rw [(offers_subst ht).2] at hy
      exact .right hy (ihr rfl)

theorem overlaps_subst_var_right : Overlaps l (r.subst .var) ↔ Overlaps l r := by
  rw [overlaps_comm, overlaps_subst_var, overlaps_comm]

/-- **Equivalent ground types overlap.** -/
theorem overlaps_of_equiv (ht : t.Ground) (h : t.equiv u = true) : Overlaps t u := by
  induction t using rigidly generalizing u with
  | var v => exact absurd rfl (ht.ne_var v)
  | union ms ih =>
    cases u with
    | union ns =>
      rw [equiv, Bool.and_eq_true] at h
      have hne : ms ≠ [] := fun hnil => ht.solid (hnil ▸ self_mem_subterms _)
      obtain ⟨m, hm⟩ := exists_mem_of_ne_nil ms hne
      obtain ⟨n, hn, hmn⟩ := exists_of_equivMembers h.2 m hm
      exact overlaps_union.mpr ⟨m, hm, .right (r := union ns) hn (ih m hm (ht.child hm) hmn)⟩
    | _ => cases h
  | rigid t hrigid ih =>
    exact .of_congruent ((hrigid.congruent h).mono fun x hx y _ hxy => ih x hx (ht.child hx) hxy)

end Ty

/-! ## Plans for ground types -/

open Ty (Overlaps)

/-- What is to be the case for a plan that binds nothing to succeed, if `R` says when the comparison of two types
    does. -/
def Plan.Holds (R : Ty → Ty → Prop) : Plan → Prop
  | .decide verdict => verdict = true
  | .bind _ _ => False
  | .all pairs verdict => verdict = true ∧ ∀ p ∈ pairs, R p.1 p.2
  | .any pair alternatives => ∃ t ∈ alternatives, R (pair t).1 (pair t).2

section Plans

variable {l r : Ty}

/-- Two lists are compared with success if they are equally long and related place by place. -/
theorem Plan.holds_pairwise {R : Ty → Ty → Prop} {ls rs : List Ty} {more : List (Ty × Ty)} {verdict : Bool} :
    (pairwise ls rs more verdict).Holds R ↔ Forall₂ R ls rs ∧ (∀ p ∈ more, R p.1 p.2) ∧ verdict = true := by
  unfold pairwise
  rw [forall₂_iff_zip]
  split
  · rename_i hlength
    simp only [Holds, forall_mem_append, Prod.forall]
    tauto
  · rename_i hlength
    simp [Holds, hlength]

/-- The options of a ground sum overlap as they do when they are unrolled. -/
theorem overlaps_unrolledOptions {n : String} {as os : List Ty} (h : (algebraic n as os).Ground) :
    (∃ t ∈ unrolledOptions (.algebraic n as os) os, Overlaps t r) ↔ ∃ o ∈ os, Overlaps o r := by
  have howner : (algebraic n as os).In .explicit := in_explicit.mpr ⟨h.solid, h.explicit⟩
  have hoption : ∀ o ∈ os, Overlaps (o.unroll (.algebraic n as os)) r ↔ Overlaps o r := by
    intro o ho
    have hsame : (o.unroll (.algebraic n as os)).subst .var = o.subst .var :=
      subst_unrollNamed n howner (howner.child (mem_append_right _ ho))
    rw [← overlaps_subst_var, hsame, overlaps_subst_var]
  simp only [unrolledOptions, mem_map, exists_exists_and_eq_and]
  exact exists_congr fun o => and_congr_right fun ho => hoption o ho

/-- Where neither type has anything to offer, the parts decide. -/
theorem overlaps_iff_congruent (hl : l.offers r = []) (hr : r.offers l = []) :
    Overlaps l r ↔ Ty.Congruent Overlaps l r := by
  rw [overlaps_iff, hl, hr]
  simp

/-- Where the constructors differ and only one type has something to offer, that decides. -/
theorem overlaps_iff_offers (h : ¬Ty.Congruent Overlaps l r) (hr : r.offers l = []) :
    Overlaps l r ↔ ∃ x ∈ l.offers r, Overlaps x r := by
  rw [overlaps_iff, hr]
  simp [h]

/-- **The plan for two ground types** succeeds iff they overlap. -/
theorem plan_holds_iff {defs : Definitions} {a : Arena} (hl : l.Ground) (hr : r.Ground) :
    (plan defs a l r).Holds Overlaps ↔ Overlaps l r := by
  fun_cases plan defs a l r
  case case1 v => exact absurd rfl (hr.ne_var v)
  case case2 v _ => exact absurd rfl (hl.ne_var v)
  -- members of unions, on the right and on the left
  case case3 ms _ =>
      rw [overlaps_comm, overlaps_union]
      exact exists_congr fun m => and_congr_right fun _ => overlaps_comm
  case case4 => exact overlaps_union.symm
  -- placeholders
  case case5 | case6 | case7 | case8 | case9 => exact (in_ground.mpr hr).admits.elim
  case case10 | case11 | case12 => exact (in_ground.mpr hl).admits.elim
  -- the same constructor on both sides
  case case13 =>
      rw [overlaps_iff_congruent rfl rfl]
      exact decide_eq_true_iff
  case case14 a₁ r₁ a₂ r₂ =>
      rw [overlaps_iff_congruent rfl rfl]
      simp only [Holds, Ty.Congruent, forall_mem_cons, true_and]
      split
      · rw [overlaps_comm (l := a₂)]
        simp
      · simp
  case case15 n as fs m bs gs hsame =>
      have hlength : (fs.map Prod.snd).length = (gs.map Prod.snd).length := by
        simpa using congrArg List.length hsame.2
      rw [overlaps_iff_congruent rfl rfl, holds_pairwise]
      simp only [Ty.Congruent, hsame.1, hsame.2, forall₂_iff_zip, hlength, Prod.forall, true_and, and_true]
  case case16 hdiffer =>
      rw [overlaps_iff_congruent rfl rfl]
      simp only [Holds, Bool.false_eq_true, Ty.Congruent, false_iff]
      rintro ⟨hname, -, hlabels, -⟩
      exact hdiffer ⟨hname, hlabels⟩
  case case17 as os m bs ps hlength =>
      rw [overlaps_iff_congruent rfl rfl, holds_pairwise]
      simp only [Ty.Congruent, forall₂_iff_zip, hlength, Prod.forall, true_and, and_true]
  case case18 hlength =>
      rw [overlaps_iff_congruent rfl rfl, holds_pairwise]
      simp only [Bool.false_eq_true, and_false, Ty.Congruent, false_iff]
      exact fun h => hlength h.2.2.length_eq
  case case19 hdiffer =>
      rw [overlaps_iff_congruent rfl rfl]
      simp only [Holds, Bool.false_eq_true, Ty.Congruent, false_iff]
      exact fun h => hdiffer h.1
  -- options of a sum, on the left and on the right
  case case20 | case21 =>
      rw [overlaps_iff_offers]
      · exact overlaps_unrolledOptions hl
      · exact not_false
      · rfl
  case case22 | case23 =>
      rw [overlaps_comm, overlaps_iff_offers]
      · refine Iff.trans (exists_congr fun t => and_congr_right fun _ => overlaps_comm) ?_
        exact overlaps_unrolledOptions hr
      · exact not_false
      · rfl
  -- different constructors
  case case24 =>
      have hdiffer : ¬Ty.Congruent Overlaps l r ∧ l.offers r = [] ∧ r.offers l = [] := by
        cases l <;> cases r <;> first
          | exact ⟨not_false, rfl, rfl⟩
          | solve_by_elim
      rw [overlaps_iff_congruent hdiffer.2.1 hdiffer.2.2]
      simp [Holds, hdiffer.1]

end Plans

/-! ## Comparisons of ground types -/

/-- **A comparison decides a question**: it comes to an end, leaves the arena as it was, and succeeds iff the answer
    is yes. -/
def Judges (s : Store) (P : Prop) (out : Option (Bool × Store)) : Prop :=
  ∃ ok s', out = some (ok, s') ∧ s'.arena = s.arena ∧ (ok = true ↔ P)

theorem Judges.congr {s s' : Store} {P Q : Prop} {out : Option (Bool × Store)} (h : Judges s P out)
    (hs : s.arena = s'.arena) (hPQ : P ↔ Q) : Judges s' Q out := by
  obtain ⟨ok, after, hout, harena, hok⟩ := h
  exact ⟨ok, after, hout, harena.trans hs, hok.trans hPQ⟩

section Judging

variable {next : Comparison} {level : Nat} {s : Store}

/-- Comparing pairs one after the other asks for all of them. -/
theorem compareAll_judges {R : Ty → Ty → Prop} {verdict : Bool} {pairs : List (Ty × Ty)}
    (h : ∀ p ∈ pairs, ∀ s' : Store, s'.arena = s.arena → Judges s' (R p.1 p.2) (next p.1 p.2 level s')) :
    Judges s (verdict = true ∧ ∀ p ∈ pairs, R p.1 p.2) (compareAll next level verdict pairs s) := by
  induction pairs generalizing s with
  | nil => exact ⟨verdict, s, rfl, rfl, by simp⟩
  | cons p ps ih =>
    obtain ⟨hp, hps⟩ := forall_mem_cons.mp h
    obtain ⟨ok, s₁, hrun, harena, hok⟩ := hp s rfl
    unfold compareAll
    rw [hrun]
    simp only [Option.bind_eq_bind, Option.bind_some, forall_mem_cons]
    cases ok with
    | false =>
      refine ⟨false, s₁, rfl, harena, ?_⟩
      simp [← hok]
    | true =>
      refine (ih fun q hq s' hs' => hps q hq s' (hs'.trans harena)).congr harena ?_
      simp [hok.mp rfl]

/-- Trying alternatives that bind nothing stops at the first success. -/
theorem tryAlternatives_judges {attempt : Attempt} {P : Ty → Prop} {alternatives : List Ty}
    (h : ∀ t ∈ alternatives, ∀ s' : Store, s'.arena = s.arena → Judges s' (P t) (attempt t s')) :
    ∃ search s', tryAlternatives attempt alternatives s = some (search, s') ∧ s'.arena = s.arena ∧
      ((search = .settled ∧ ∃ t ∈ alternatives, P t) ∨ (search = .found [] ∧ ∀ t ∈ alternatives, ¬P t)) := by
  induction alternatives generalizing s with
  | nil => exact ⟨_, s, rfl, rfl, Or.inr ⟨rfl, by simp⟩⟩
  | cons t rest ih =>
    obtain ⟨ht, hrest⟩ := forall_mem_cons.mp h
    obtain ⟨ok, tried, hrun, harena, hok⟩ := ht s rfl
    have hunchanged : tried.arena.unchangedSince s.arena.snapshot = true := by
      rw [harena]
      simp [unchangedSince, snapshot]
    have hback : (tried.rollback s.arena.snapshot).arena = s.arena := by
      change tried.arena.rollback s.arena.snapshot = s.arena
      rw [harena, rollback_snapshot]
    unfold tryAlternatives
    rw [hrun]
    simp only [Option.bind_eq_bind, Option.bind_some, hunchanged, Bool.and_true]
    cases ok with
    | true => exact ⟨_, tried, rfl, harena, Or.inl ⟨rfl, t, mem_cons_self, hok.mp rfl⟩⟩
    | false =>
      have hnot : ¬P t := fun hP => Bool.false_ne_true (hok.mpr hP)
      obtain ⟨search, s₂, hsearch, hsame, hout⟩ :=
        ih (s := tried.rollback s.arena.snapshot) fun u hu s' hs' => hrest u hu s' (hs'.trans hback)
      simp only [Bool.false_eq_true, if_false, hsearch, Option.bind_some]
      rcases hout with ⟨rfl, u, hu, hP⟩ | ⟨rfl, hnone⟩
      · exact ⟨_, s₂, rfl, hsame.trans hback, Or.inl ⟨rfl, u, mem_cons_of_mem _ hu, hP⟩⟩
      · exact ⟨_, s₂, rfl, hsame.trans hback, Or.inr ⟨rfl, forall_mem_cons.mpr ⟨hnot, hnone⟩⟩⟩

/-- Trying alternatives that bind nothing asks for one of them. -/
theorem compareAlternatives_judges {attempt : Attempt} {P : Ty → Prop} {alternatives : List Ty}
    (h : ∀ t ∈ alternatives, ∀ s' : Store, s'.arena = s.arena → Judges s' (P t) (attempt t s')) :
    Judges s (∃ t ∈ alternatives, P t) (compareAlternatives attempt level alternatives s) := by
  obtain ⟨search, s', hsearch, harena, hout⟩ := tryAlternatives_judges h
  unfold compareAlternatives
  rw [hsearch]
  rcases hout with ⟨rfl, hsome⟩ | ⟨rfl, hnone⟩
  · exact ⟨true, s', rfl, harena, by simpa using hsome⟩
  · exact ⟨false, s', rfl, harena, by simpa using hnone⟩

/-- **One step decides whether ground types overlap** if the comparisons of parts do. What is ground are the types at
    the top, where variables have been followed. -/
theorem compareStep_judges {defs : Definitions} {l r l' r' : Ty} (hfl : s.arena.follow l = l')
    (hfr : s.arena.follow r = r') (hl : l'.Ground) (hr : r'.Ground)
    (h : ∀ p, Part defs l' r' p → p.1.Ground → p.2.Ground → ∀ s' : Store, s'.arena = s.arena →
      Judges s' (Overlaps p.1 p.2) (next p.1 p.2 (level + 1) s')) :
    Judges s (Overlaps l' r') (compareStep defs next l r level s) := by
  have hpairs : ∀ p ∈ (plan defs s.arena l' r').pairs, ∀ s' : Store, s'.arena = s.arena →
      Judges s' (Overlaps p.1 p.2) (next p.1 p.2 (level + 1) s') := by
    intro p hp
    have hpart := plan_pairs hp
    obtain ⟨hp₁, hp₂⟩ := hpart.in (F := .ground) (fun hno => hno.elim) (in_ground.mpr hl) (in_ground.mpr hr)
    exact h p hpart (in_ground.mp hp₁) (in_ground.mp hp₂)
  subst hfl hfr
  cases hequal : s.arena.equivalent (s.arena.follow l) (s.arena.follow r) with
  | true =>
    -- equivalent types overlap
    obtain ⟨after, hstep, harena⟩ := compareStep_equal hequal
    refine ⟨true, after, hstep, harena, iff_of_true rfl ?_⟩
    rw [equivalent, hl.expose, hr.expose] at hequal
    have hoverlap := overlaps_of_equiv (hl.subst .var) hequal
    rwa [overlaps_subst_var, overlaps_subst_var_right] at hoverlap
  | false =>
    obtain ⟨before, hbefore, hrun⟩ := compareStep_run hequal
    have hjudges : Judges before (Overlaps (s.arena.follow l) (s.arena.follow r))
        ((plan defs s.arena (s.arena.follow l) (s.arena.follow r)).run next level before) := by
      have hholds : (plan defs s.arena (s.arena.follow l) (s.arena.follow r)).Holds Overlaps ↔
          Overlaps (s.arena.follow l) (s.arena.follow r) := plan_holds_iff hl hr
      rw [← hholds]
      cases hplan : plan defs s.arena (s.arena.follow l) (s.arena.follow r) with
      | decide verdict => exact ⟨verdict, before, rfl, rfl, Iff.rfl⟩
      | bind v t =>
        rcases plan_eq_bind hplan with ⟨-, hvar⟩ | ⟨hvar, -⟩
        · exact absurd hvar (hr.ne_var v)
        · exact absurd hvar (hl.ne_var v)
      | all pairs verdict =>
        rw [hplan] at hpairs
        exact compareAll_judges fun p hp s' hs' => hpairs p hp s' (hs'.trans hbefore)
      | any pair alternatives =>
        rw [hplan] at hpairs
        exact compareAlternatives_judges fun t ht s' hs' =>
          hpairs (pair t) (mem_map_of_mem ht) s' (hs'.trans hbefore)
    obtain ⟨ok, after, hout, hsame, hok⟩ := hjudges
    obtain ⟨s', hstep, hs'⟩ := hrun ok after hout
    exact ⟨ok, s', hstep, hs'.trans (hsame.trans hbefore), hok⟩

/-- **A depth above the weight of the types suffices**, as long as what takes over when a variable is bound does its
    part as well. -/
theorem compareAt_judges {defs : Definitions} {lower : Comparison} {unbound depth : Nat} {l r l' r' : Ty}
    (hlower : s.arena.unboundCount < unbound → ∀ l r level (s' : Store), s'.arena = s.arena → l.Ground → r.Ground →
      Judges s' (Overlaps l r) (lower l r level s'))
    (hfl : s.arena.follow l = l') (hfr : s.arena.follow r = r') (hl : l'.Ground) (hr : r'.Ground)
    (hdepth : s.arena.weight l' + s.arena.weight r' < depth) :
    Judges s (Overlaps l' r') (compareAt defs lower unbound depth l r level s) := by
  induction depth generalizing l r l' r' level s with
  | zero => exact absurd hdepth (Nat.not_lt_zero _)
  | succ depth ih =>
    refine compareStep_judges hfl hfr hl hr fun p hp hp₁ hp₂ s' hs' => ?_
    have hlighter := hp.lighter (F := .ground) not_false s.arena (in_ground.mpr hl) (in_ground.mpr hr)
    split
    · rename_i hfewer
      exact hlower (hs' ▸ hfewer) _ _ _ s' hs' hp₁ hp₂
    · exact ih (fun hfewer l r level s'' hs'' => hlower (hs' ▸ hfewer) l r level s'' (hs''.trans hs'))
        (hp₁.follow _) (hp₂.follow _) hp₁ hp₂ (by rw [hs']; omega)

/-- **A comparison of ground types decides whether they overlap**, under any count of variables. -/
theorem compareWithin_judges {defs : Definitions} {unbound : Nat} {l r l' r' : Ty} (hfl : s.arena.follow l = l')
    (hfr : s.arena.follow r = r') (hl : l'.Ground) (hr : r'.Ground) :
    Judges s (Overlaps l' r') (compareWithin defs unbound l r level s) := by
  induction unbound generalizing l r l' r' level s with
  | zero =>
    exact compareAt_judges (fun hno => absurd hno (Nat.not_lt_zero _)) hfl hfr hl hr (hl.lt_depthFor hr hfl hfr)
  | succ unbound ih =>
    exact compareAt_judges (fun _ l r level s' _ hl hr => ih (hl.follow _) (hr.follow _) hl hr) hfl hfr hl hr
      (hl.lt_depthFor hr hfl hfr)

end Judging

/-- **Unification of ground types** comes to an end, succeeds iff they overlap, and changes no variable. -/
theorem unify_ground {s : Store} {defs : Definitions} {l r : Ty} (hl : l.Ground) (hr : r.Ground) :
    (s.unify defs l r).1 ≠ .endless ∧ ((s.unify defs l r).1 = .unified ↔ Overlaps l r) ∧
      (s.unify defs l r).2.arena = s.arena := by
  have hjudges : Judges s (Overlaps l r) (compareWithin defs s.arena.unboundCount l r 0 s) :=
    compareWithin_judges (hl.follow _) (hr.follow _) hl hr
  obtain ⟨ok, after, hrun, harena, hok⟩ := hjudges
  unfold Store.unify
  rw [hrun]
  cases ok with
  | true => exact ⟨by simp, by simpa using hok, harena⟩
  | false =>
    refine ⟨by simp, by simpa using hok, ?_⟩
    change after.arena.rollback s.arena.snapshot = s.arena
    rw [harena, rollback_snapshot]

/-- The two answers that there are. -/
theorem unify_ground_cases {s : Store} {defs : Definitions} {l r : Ty} (hl : l.Ground) (hr : r.Ground) :
    (s.unify defs l r).1 = .unified ∧ Overlaps l r ∨ (s.unify defs l r).1 = .mismatch ∧ ¬Overlaps l r := by
  obtain ⟨hends, hunified, -⟩ := @unify_ground s defs l r hl hr
  by_cases hoverlap : Overlaps l r
  · exact Or.inl ⟨hunified.mpr hoverlap, hoverlap⟩
  · refine Or.inr ⟨?_, hoverlap⟩
    cases hanswer : (s.unify defs l r).1 with
    | unified => exact absurd (hunified.mp hanswer) hoverlap
    | mismatch => rfl
    | endless => exact absurd hanswer hends

/-- **Unification of ground types is symmetric.** Either way round it comes to an end with the same answer, which
    depends on the two types alone, and no variable is bound. -/
theorem ground_unification_is_symmetric (c : Context) {l r : Ty} (hl : l.Ground) (hr : r.Ground) :
    (c.unify l r).1 = (c.unify r l).1 ∧
      ((c.unify l r).1 = .unified ∧ Overlaps l r ∨ (c.unify l r).1 = .mismatch ∧ ¬Overlaps l r) ∧
      (c.unify l r).2.store.arena = c.store.arena ∧ (c.unify r l).2.store.arena = c.store.arena := by
  have hleft : (c.unify l r).1 = .unified ∧ Overlaps l r ∨ (c.unify l r).1 = .mismatch ∧ ¬Overlaps l r :=
    unify_ground_cases hl hr
  have hright : (c.unify r l).1 = .unified ∧ Overlaps r l ∨ (c.unify r l).1 = .mismatch ∧ ¬Overlaps r l :=
    unify_ground_cases hr hl
  refine ⟨?_, hleft, (unify_ground hl hr).2.2, (unify_ground hr hl).2.2⟩
  rcases hleft with ⟨h, hoverlap⟩ | ⟨h, hnot⟩
  · rcases hright with ⟨h', -⟩ | ⟨-, hnot⟩
    · rw [h, h']
    · exact absurd hoverlap.symm hnot
  · rcases hright with ⟨-, hoverlap⟩ | ⟨h', -⟩
    · exact absurd hoverlap.symm hnot
    · rw [h, h']

/-- A sum against a union with one of its constructors in it, functions of functions whose arguments are compared the
    other way round, and unions of the same length of which only one holds all members of the other. -/
theorem ground_unification_is_symmetric_mixed :
    let c := Context.new "main" false
    let just : Ty := .record "Just" [.integer] [("value", .integer)]
    let maybe : Ty := .algebraic "Maybe" [.integer] [just, .simple "Nothing"]
    let swapped : Ty := .func (.union [.string, .integer]) .boolean
    let l : Ty := .func (.func maybe .string) (.union [.func (.union [.integer, .string]) .boolean, swapped])
    let r : Ty := .func (.func (.union [.boolean, just]) .string) (.union [swapped, .double])
    l.Ground ∧ r.Ground ∧ (c.unify l r).1 = .unified ∧ (c.unify r l).1 = .unified := by
  intro c just maybe swapped l r
  have hl : l.Ground := by decide +kernel
  have hr : r.Ground := by decide +kernel
  have hunified : (c.unify l r).1 = .unified := by decide +kernel
  exact ⟨hl, hr, hunified, (ground_unification_is_symmetric c hl hr).1 ▸ hunified⟩

end UnionTyping
