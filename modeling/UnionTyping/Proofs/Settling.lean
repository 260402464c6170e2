import UnionTyping.Proofs.Conditional

/-!
# `Proofs.Settling` — pairs of types that unification has nothing left to do about

Two types are *settled* if a comparison would succeed and bind nothing: they are equivalent, or all pairs that are
compared next are settled, or that of one alternative is (`Settles`). Unification leaves a settled pair alone, however
many other alternatives there are to try (`unify_settled`).

Equivalent types are settled, and they stay settled when more variables are bound, although they need not stay
equivalent (`settles_of_equivalent`): members of a union that differ only in the order of their own members can become
equal, and then the unions are no longer of the same length. But a member that is no variable keeps its counterpart on
the other side, and one pair of such members is enough. Where all members are variables, the unions have the same
variables, and stay equivalent.
-/

namespace UnionTyping

open List Arena

/-! ## Unions with the same members -/

theorem nodup_eraseDups {α : Type} [BEq α] [LawfulBEq α] (xs : List α) : xs.eraseDups.Nodup := by
  generalize hn : xs.length = n
  induction n using Nat.strongRecOn generalizing xs with
  | ind n ih =>
    cases xs with
    | nil => exact nodup_nil
    | cons x rest =>
      rw [eraseDups_cons]
      refine nodup_cons.mpr ⟨fun hmem => ?_, ih _ ?_ _ rfl⟩
      · simpa using (mem_filter.mp (mem_eraseDups.mp hmem)).2
      · have hle := length_filter_le (fun y => !y == x) rest
        rw [← hn, length_cons]
        omega

theorem eraseDups_of_nodup {α : Type} [BEq α] [LawfulBEq α] {xs : List α} (h : xs.Nodup) : xs.eraseDups = xs := by
  induction xs with
  | nil => rfl
  | cons x xs ih =>
    obtain ⟨hx, hxs⟩ := nodup_cons.mp h
    have hfilter : (xs.filter fun y => !y == x) = xs := by
      refine filter_eq_self.mpr fun y hy => ?_
      have hne : y ≠ x := fun heq => hx (heq ▸ hy)
      simp [hne]
    rw [eraseDups_cons, hfilter, ih hxs]

namespace Ty

variable {t u : Ty} {R : Ty → Ty → Prop}

theorem Normal.nodup (h : t.Normal) : t.alternatives.Nodup := by
  cases t with
  | union ms =>
    rcases union?_cases h.joined with he | ⟨v, vs, heq, he⟩
    · have hmem : union ms ∈ (union ms).alternatives := by
        obtain ⟨m, hm, hself⟩ := mem_flattened.mp (he.symm ▸ mem_singleton.mpr rfl)
        rwa [mem_singleton.mp hm] at hself
      rw [h.flat _ hmem]
      exact nodup_singleton _
    · rw [flatMap_singleton] at he
      rw [heq]
      exact he ▸ nodup_eraseDups _
  | _ => exact nodup_singleton _

/-- A type in normal form with one alternative is that alternative. -/
theorem Normal.eq_of_alternatives (h : t.Normal) (hu : t.alternatives = [u]) : t = u := by
  have hsingle : u.alternatives = [u] := h.flat u (hu ▸ mem_singleton.mpr rfl)
  have hsame : union? [t] = union? [u] := by
    refine union?_congr ?_
    rw [flatMap_singleton, flatMap_singleton, hu, hsingle]
  rw [h.joined, (normal_of_alternatives hsingle).joined] at hsame
  exact Option.some.inj hsame

/-- **Types in normal form with the same alternatives are equivalent.** -/
theorem equiv_of_same (ht : t.Normal) (hu : u.Normal) (h : ∀ x, x ∈ t.alternatives ↔ x ∈ u.alternatives) :
    t.equiv u = true := by
  have hperm : t.alternatives.Perm u.alternatives := (perm_ext_iff_of_nodup ht.nodup hu.nodup).mpr h
  by_cases hsingle : ∃ x, t.alternatives = [x]
  · obtain ⟨x, hx⟩ := hsingle
    rw [hx] at hperm
    rw [ht.eq_of_alternatives hx, hu.eq_of_alternatives (singleton_perm.mp hperm).symm]
    exact equiv_refl x
  · -- otherwise both are unions, with as many members
    cases t with
    | union xs =>
      cases u with
      | union ys =>
        have hmembers : equivMembers xs ys = true :=
          equivMembers_of_forall fun x hx => ⟨x, (h x).mp hx, equiv_refl x⟩
        have hlength : xs.length = ys.length := hperm.length_eq
        rw [equiv, decide_eq_true hlength, hmembers]
        rfl
      | _ => exact absurd ⟨_, perm_singleton.mp hperm⟩ hsingle
    | _ => exact absurd ⟨_, rfl⟩ hsingle

theorem exists_of_equivMembers {xs ys : List Ty} (h : equivMembers xs ys = true) :
    ∀ x ∈ xs, ∃ y ∈ ys, x.equiv y = true := by
  induction xs with
  | nil => simp
  | cons x xs ih =>
    rw [equivMembers, Bool.and_eq_true, any_eq_true] at h
    exact forall_mem_cons.mpr ⟨h.1, ih h.2⟩

/-- Equivalent types have as many alternatives, and each of the first is equivalent to one of the second. -/
theorem alternatives_of_equiv (h : t.equiv u = true) : t.alternatives.length = u.alternatives.length ∧
    ∀ x ∈ t.alternatives, ∃ y ∈ u.alternatives, x.equiv y = true := by
  cases t with
  | union xs =>
    cases u with
    | union ys =>
      rw [equiv, Bool.and_eq_true, decide_eq_true_iff] at h
      exact ⟨h.1, exists_of_equivMembers h.2⟩
    | _ => cases h
  | _ =>
    cases u with
    | union ys => cases h
    | _ =>
      refine ⟨rfl, fun x hx => ⟨_, mem_singleton.mpr rfl, ?_⟩⟩
      rw [mem_singleton.mp hx]
      exact h

theorem IsRigid.of_equiv (ht : t.IsRigid) (h : t.equiv u = true) : u.IsRigid := by
  cases u with
  | union ms =>
    cases t with
    | union ns => exact ht.elim
    | _ => cases h
  | var v =>
    cases t with
    | var w => exact ht.elim
    | _ => cases h
  | _ => trivial

/-- Alternatives in normal form that are not rigid are variables. -/
theorem Normal.exists_var {x : Ty} (h : t.Normal) (hx : x ∈ t.alternatives) (hrigid : ¬x.IsRigid) : ∃ v, x = var v := by
  cases x with
  | var v => exact ⟨v, rfl⟩
  | union ms =>
    -- a union is not its own only member
    have hsize : sizeOf ms = sizeOf [union ms] := congrArg sizeOf (h.flat _ hx)
    simp at hsize
    omega
  | _ => exact absurd trivial hrigid

/-! ## Types that agree part by part -/

/-- **Two types agree part by part**: they are made by the same constructor from related parts. -/
def Congruent (R : Ty → Ty → Prop) : Ty → Ty → Prop
  | .simple n, .simple m => n = m
  | .func a r, .func b t => R a b ∧ R r t
  | .record n as fs, .record m bs gs => n = m ∧ Forall₂ R as bs ∧
      fs.map Prod.fst = gs.map Prod.fst ∧ Forall₂ R (fs.map Prod.snd) (gs.map Prod.snd)
  | .algebraic n as os, .algebraic m bs ps => n = m ∧ Forall₂ R as bs ∧ Forall₂ R os ps
  | .recursive n as, .recursive m bs => n = m ∧ Forall₂ R as bs
  | _, _ => False

/-- What is left of a type when its children are blanked out. -/
def shape (t : Ty) : Ty :=
  t.mapChildren fun _ => .simple ""

theorem isRigid_shape : t.shape.IsRigid ↔ t.IsRigid := by
  cases t <;> exact Iff.rfl

theorem shape_mapChildren (f : Ty → Ty) (t : Ty) : (t.mapChildren f).shape = t.shape :=
  mapChildren_mapChildren f _ t

theorem forall₂_append_iff {ts us ts' us' : List Ty} (h : ts.length = us.length) :
    Forall₂ R (ts ++ ts') (us ++ us') ↔ Forall₂ R ts us ∧ Forall₂ R ts' us' := by
  induction ts generalizing us with
  | nil => simp [length_eq_zero_iff.mp h.symm]
  | cons t ts ih =>
    cases us with
    | nil => cases h
    | cons u us => simp [ih (Nat.succ.inj h), and_assoc]

/-- **Types agree part by part** if they are of one shape and their children are related place by place. -/
theorem congruent_iff :
    Congruent R t u ↔ t.IsRigid ∧ t.shape = u.shape ∧ Forall₂ R t.children u.children := by
  have hblank : ∀ {α : Type} {xs ys : List α},
      xs.map (fun _ => simple "") = ys.map (fun _ => simple "") ↔ xs.length = ys.length := by
    simp [map_const', replicate_inj]
  cases t with
  | simple n =>
    cases u with
    | simple m => simp [Congruent, shape, mapChildren, children, IsRigid]
    | _ => exact ⟨fun h => h.elim, fun h => by cases h.2.1⟩
  | func a r =>
    cases u with
    | func b s => simp [Congruent, shape, mapChildren, children, IsRigid]
    | _ => exact ⟨fun h => h.elim, fun h => by cases h.2.1⟩
  | record n as fs =>
    cases u with
    | record m bs gs =>
      have hlabels : fs.map (fun e => (e.1, simple "")) = gs.map (fun e => (e.1, simple "")) ↔
          fs.map Prod.fst = gs.map Prod.fst := by
        rw [fields_eq_iff, map_map, map_map, map_map, map_map]
        exact and_iff_left_of_imp fun h => hblank.mpr (by simpa using congrArg length h)
      simp only [Congruent, shape, mapChildren, children, record.injEq, hblank, hlabels]
      constructor
      · rintro ⟨hname, hargs, hnames, hfields⟩
        exact ⟨trivial, ⟨hname, hargs.length_eq, hnames⟩, (forall₂_append_iff hargs.length_eq).mpr ⟨hargs, hfields⟩⟩
      · rintro ⟨-, ⟨hname, hlength, hnames⟩, h⟩
        obtain ⟨hargs, hfields⟩ := (forall₂_append_iff hlength).mp h
        exact ⟨hname, hargs, hnames, hfields⟩
    | _ => exact ⟨fun h => h.elim, fun h => by cases h.2.1⟩
  | algebraic n as os =>
    cases u with
    | algebraic m bs ps =>
      simp only [Congruent, shape, mapChildren, children, algebraic.injEq, hblank]
      constructor
      · rintro ⟨hname, hargs, hoptions⟩
        exact ⟨trivial, ⟨hname, hargs.length_eq, hoptions.length_eq⟩,
          (forall₂_append_iff hargs.length_eq).mpr ⟨hargs, hoptions⟩⟩
      · rintro ⟨-, ⟨hname, hlength, -⟩, h⟩
        exact ⟨hname, (forall₂_append_iff hlength).mp h⟩
    | _ => exact ⟨fun h => h.elim, fun h => by cases h.2.1⟩
  | recursive n as =>
    cases u with
    | recursive m bs =>
      simp only [Congruent, shape, mapChildren, children, recursive.injEq, hblank]
      exact ⟨fun h => ⟨trivial, ⟨h.1, h.2.length_eq⟩, h.2⟩, fun h => ⟨h.2.1.1, h.2.2⟩⟩
    | _ => exact ⟨fun h => h.elim, fun h => by cases h.2.1⟩
  | union ms => exact ⟨fun h => h.elim, fun h => h.1.elim⟩
  | var v => exact ⟨fun h => h.elim, fun h => h.1.elim⟩

theorem Congruent.flip {R S : Ty → Ty → Prop} (hRS : ∀ x y, R x y → S y x) (h : Congruent R t u) : Congruent S u t := by
  obtain ⟨hrigid, hshape, hchildren⟩ := congruent_iff.mp h
  refine congruent_iff.mpr ⟨?_, hshape.symm, hchildren.flip.imp fun y x => hRS x y⟩
  rwa [← isRigid_shape, ← hshape, isRigid_shape]

/-- Only how the parts are related matters. -/
theorem Congruent.mono {R S : Ty → Ty → Prop} (hRS : ∀ x ∈ t.children, ∀ y ∈ u.children, R x y → S x y)
    (h : Congruent R t u) : Congruent S t u := by
  obtain ⟨hrigid, hshape, hchildren⟩ := congruent_iff.mp h
  rw [forall₂_iff_zip] at hchildren
  refine congruent_iff.mpr ⟨hrigid, hshape, forall₂_iff_zip.mpr ⟨hchildren.1, fun hxy => ?_⟩⟩
  exact hRS _ (of_mem_zip hxy).1 _ (of_mem_zip hxy).2 (hchildren.2 hxy)

/-- Substitution goes to the parts of a type that is neither a variable nor a union. -/
theorem congruent_subst {f : TyVar → Ty} (ht : t.IsRigid) :
    Congruent R (t.subst f) u ↔ Congruent (fun x y => R (x.subst f) y) t u := by
  rw [congruent_iff, congruent_iff, children_subst ht, forall₂_map_left_iff, iff_true_intro ht.subst,
    iff_true_intro ht, ht.subst_eq, shape_mapChildren]

/-- Lists are equivalent place by place. -/
theorem forall₂_of_equivList {ts us : List Ty} (h : equivList ts us = true) :
    Forall₂ (fun x y => x.equiv y = true) ts us := by
  induction ts generalizing us with
  | nil =>
    cases us with
    | nil => exact .nil
    | cons u us => cases h
  | cons t ts ih =>
    cases us with
    | nil => cases h
    | cons u us =>
      rw [equivList, Bool.and_eq_true] at h
      exact .cons h.1 (ih h.2)

/-- **Equivalent types that are neither variables nor unions agree part by part.** -/
theorem IsRigid.congruent (ht : t.IsRigid) (h : t.equiv u = true) : Congruent (fun x y => x.equiv y = true) t u := by
  cases t with
  | simple n =>
    cases u with
    | simple m => simpa [equiv, Congruent] using h
    | _ => cases h
  | func a r =>
    cases u with
    | func b t =>
      rw [equiv, Bool.and_eq_true] at h
      exact h
    | _ => cases h
  | record n as fs =>
    cases u with
    | record m bs gs =>
      rw [equiv, Bool.and_eq_true, Bool.and_eq_true, decide_eq_true_iff, equivFields_iff] at h
      exact ⟨h.1.1, forall₂_of_equivList h.1.2, h.2.1, forall₂_of_equivList h.2.2⟩
    | _ => cases h
  | algebraic n as os =>
    cases u with
    | algebraic m bs ps =>
      rw [equiv, Bool.and_eq_true, Bool.and_eq_true, decide_eq_true_iff] at h
      exact ⟨h.1.1, forall₂_of_equivList h.1.2, forall₂_of_equivList h.2⟩
    | _ => cases h
  | recursive n as =>
    cases u with
    | recursive m bs =>
      rw [equiv, Bool.and_eq_true, decide_eq_true_iff] at h
      exact ⟨h.1, forall₂_of_equivList h.2⟩
    | _ => cases h
  | union ms => exact ht.elim
  | var v => exact ht.elim

/-- The same for types as they are written, of which the exposed forms are equivalent. -/
theorem congruent_of_equiv {f : TyVar → Ty} (ht : t.IsRigid) (hu : u.IsRigid)
    (h : (t.subst f).equiv (u.subst f) = true)
    (hR : ∀ x ∈ t.children, ∀ y ∈ u.children, (x.subst f).equiv (y.subst f) = true → R x y) : Congruent R t u := by
  have hleft := ((congruent_subst ht).mp (ht.subst.congruent h)).flip fun _ _ hxy => hxy
  have hboth := ((congruent_subst (R := fun y x => (x.subst f).equiv y = true) hu).mp hleft).flip
    (S := fun x y => (x.subst f).equiv (y.subst f) = true) fun _ _ hyx => hyx
  exact hboth.mono hR

end Ty

/-! ## What stays at the top -/

namespace Arena

variable {a b : Arena}

theorem follow_follow (ha : a.Acyclic) (t : Ty) : a.follow (a.follow t) = a.follow t := by
  by_cases hvar : ∃ w, a.follow t = .var w
  · obtain ⟨w, hw⟩ := hvar
    rw [hw, follow_unbound (unbound_of_follow ha hw)]
  · exact follow_of_ne_var fun w hw => hvar ⟨w, hw⟩

/-- Following bindings can be interrupted where there were fewer. -/
theorem follow_extends (h : a.Extends b) (hb : b.Acyclic) (t : Ty) : b.follow (a.follow t) = b.follow t := by
  have ha : a.Acyclic := .of_extends h hb
  have hvar : ∀ v : TyVar, b.follow (a.follow (.var v)) = b.follow (.var v) := by
    intro v
    induction v using ha.induction with
    | unbound v hv => rw [follow_unbound hv]
    | bound v u hu ih =>
      rw [follow_bound ha hu, follow_bound hb (h.binding? hu)]
      cases u with
      | var x => exact ih x (by simp)
      | _ => rw [follow_of_ne_var (a := a) (by simp)]
  cases t with
  | var v => exact hvar v
  | _ => rw [follow_of_ne_var (a := a) (by simp)]

/-- **What is no variable at the top stays there.** -/
theorem follow_stays {t : Ty} (h : a.Extends b) (hb : b.Acyclic) (ht : ∀ v, a.follow t ≠ .var v) :
    b.follow t = a.follow t := by
  rw [← follow_extends h hb, follow_of_ne_var ht]

end Arena

/-! ## Settled pairs -/

/-- **Nothing is left to do about two types**: a comparison would find them equivalent, or find nothing left to do
    about all pairs that it goes on with, or about one alternative. -/
inductive Settles (defs : Definitions) (a : Arena) : Ty → Ty → Prop where
  | equal {l r : Ty} : a.equivalent l r = true → Settles defs a l r
  | all {l r : Ty} {pairs : List (Ty × Ty)} : plan defs a (a.follow l) (a.follow r) = .all pairs true →
      (∀ p ∈ pairs, Settles defs a p.1 p.2) → Settles defs a l r
  | any {l r t : Ty} {pair : Ty → Ty × Ty} {alternatives : List Ty} :
      plan defs a (a.follow l) (a.follow r) = .any pair alternatives → t ∈ alternatives →
      Settles defs a (pair t).1 (pair t).2 → Settles defs a l r

section Rerun

variable {defs : Definitions}

/-- A comparison that leaves settled pairs alone. -/
abbrev Comparison.Resting (defs : Definitions) (compare : Comparison) : Prop :=
  compare.Meets fun l r s ok s' => s.arena.Binds s'.arena ∧
    (s.arena.Acyclic → Settles defs s.arena l r → ok = true ∧ s'.arena = s.arena)

theorem compareAll_resting {next : Comparison} (hnext : next.Resting defs) {level : Nat} {pairs : List (Ty × Ty)}
    {s s' : Store} {ok : Bool} (hs : s.arena.Acyclic) (hpairs : ∀ p ∈ pairs, Settles defs s.arena p.1 p.2)
    (h : compareAll next level true pairs s = some (ok, s')) : ok = true ∧ s'.arena = s.arena := by
  induction pairs generalizing s with
  | nil =>
    cases h
    exact ⟨rfl, rfl⟩
  | cons p ps ih =>
    obtain ⟨hp, hps⟩ := forall_mem_cons.mp hpairs
    unfold compareAll at h
    obtain ⟨⟨ok₁, s₁⟩, hfirst, hrest⟩ := Option.bind_eq_some_iff.mp h
    obtain ⟨rfl, hsame⟩ := (hnext _ _ _ _ _ _ hfirst).2 hs hp
    obtain ⟨hok, hafter⟩ := ih (hsame ▸ hs) (hsame ▸ hps) hrest
    exact ⟨hok, hafter.trans hsame⟩

/-- **A search among alternatives of which one is settled** ends there, or before. -/
theorem tryAlternatives_resting {attempt : Attempt} {t : Ty} {alternatives : List Ty} {s s' : Store} {search : Search}
    (hbinds : ∀ t s ok s', attempt t s = some (ok, s') → s.arena.Binds s'.arena)
    (hsettled : ∀ before ok after, before.arena = s.arena → attempt t before = some (ok, after) →
      ok = true ∧ after.arena = s.arena) (ht : t ∈ alternatives)
    (h : tryAlternatives attempt alternatives s = some (search, s')) : search = .settled := by
  induction alternatives generalizing s s' search with
  | nil => cases ht
  | cons first rest ih =>
    unfold tryAlternatives at h
    obtain ⟨⟨ok, tried⟩, htried, h⟩ := Option.bind_eq_some_iff.mp h
    have hback : (tried.rollback s.arena.snapshot).arena = s.arena := (hbinds _ _ _ _ htried).rollback
    simp only [] at h
    split at h
    · cases h
      rfl
    · rename_i hgoes
      obtain ⟨⟨searched, s₂⟩, hrest, h⟩ := Option.bind_eq_some_iff.mp h
      rcases mem_cons.mp ht with rfl | ht
      · -- the settled one ends the search at once
        obtain ⟨rfl, hsame⟩ := hsettled s ok tried rfl htried
        refine absurd ?_ hgoes
        rw [hsame]
        simp [unchangedSince, snapshot]
      · have hlater : searched = .settled := by
          refine ih (fun before ok after hbefore hrun => ?_) ht hrest
          rw [hback] at hbefore ⊢
          exact hsettled before ok after hbefore hrun
        subst hlater
        cases h
        rfl

theorem compareStep_resting {next : Comparison} (hnext : next.Resting defs) : (compareStep defs next).Resting defs := by
  intro l r level s ok s' h
  refine ⟨compareStep_binds (fun l r level s ok s' h => (hnext l r level s ok s' h).1) l r level s ok s' h,
    fun hs hsettles => ?_⟩
  rcases compareStep_cases h with ⟨-, hok, hsame⟩ | ⟨hdiffer, before, after, hbefore, hafter, hrun⟩
  · exact ⟨hok, hsame⟩
  · cases hsettles with
    | equal hequal =>
      rw [equivalent, expose_follow hs, expose_follow hs] at hdiffer
      rw [equivalent, hdiffer] at hequal
      cases hequal
    | all hplan hpairs =>
      rw [hplan, Plan.run] at hrun
      obtain ⟨hok, hsame⟩ := compareAll_resting hnext (hbefore ▸ hs) (hbefore ▸ hpairs) hrun
      exact ⟨hok, (hafter.trans hsame).trans hbefore⟩
    | @any _ _ t pair alternatives hplan ht hsettled =>
      rw [hplan, Plan.run] at hrun
      unfold compareAlternatives at hrun
      obtain ⟨⟨search, s₁⟩, hsearch, hrun⟩ := Option.bind_eq_some_iff.mp hrun
      have hbinds : ∀ t s ok s', next (pair t).1 (pair t).2 (level + 1) s = some (ok, s') →
          s.arena.Binds s'.arena := fun t s ok s' h => (hnext _ _ _ _ _ _ h).1
      have hends := tryAlternatives_resting hbinds (fun start ok end' hstart hattempt => ?_) ht hsearch
      · subst hends
        cases hrun
        exact ⟨rfl, (hafter.trans (tryAlternatives_spec hbinds hsearch).1).trans hbefore⟩
      · have hstart : start.arena = s.arena := hstart.trans hbefore
        obtain ⟨hok, hsame⟩ := (hnext _ _ _ _ _ _ hattempt).2 (hstart ▸ hs) (hstart ▸ hsettled)
        exact ⟨hok, hsame.trans (hstart.trans hbefore.symm)⟩

/-- **Unification leaves a settled pair alone.** -/
theorem unify_settled {s : Store} {l r : Ty} (hs : s.arena.Acyclic) (hsettles : Settles defs s.arena l r)
    (hends : (s.unify defs l r).1 ≠ .endless) :
    (s.unify defs l r).1 = .unified ∧ (s.unify defs l r).2.arena = s.arena := by
  have hresting : (compareWithin defs s.arena.unboundCount).Resting defs :=
    compareWithin_meets (fun _ => compareStep_resting) _
  unfold Store.unify at hends ⊢
  cases hrun : compareWithin defs s.arena.unboundCount l r 0 s with
  | none =>
    rw [hrun] at hends
    exact absurd rfl hends
  | some out =>
    obtain ⟨ok, after⟩ := out
    obtain ⟨rfl, hsame⟩ := (hresting _ _ _ _ _ _ hrun).2 hs hsettles
    exact ⟨rfl, hsame⟩

end Rerun

/-! ## Choosing members -/

/-- **A type as it is written has the other as a member**, of it or of a member of it, and the other is neither a
    variable nor a union. -/
inductive Leads (a : Arena) : Ty → Ty → Prop where
  | here {t : Ty} : (a.follow t).IsRigid → Leads a t (a.follow t)
  | member {t m u : Ty} {ms : List Ty} : a.follow t = .union ms → m ∈ ms → Leads a m u → Leads a t u

namespace Leads

variable {a : Arena} {t u : Ty}

theorem congr {t' : Ty} (h : Leads a t u) (hfollow : a.follow t' = a.follow t) : Leads a t' u := by
  cases h with
  | here hrigid => exact hfollow ▸ .here (hfollow.symm ▸ hrigid)
  | member hunion hm h => exact .member (hfollow.trans hunion) hm h

theorem rigid (h : Leads a t u) : u.IsRigid := by
  induction h with
  | here hrigid => exact hrigid
  | member _ _ _ ih => exact ih

theorem «in» {F : Fragment} (ha : a.Closed F) (h : Leads a t u) (ht : t.In F) : u.In F := by
  induction h with
  | here _ => exact ha.follow ht
  | member hunion hm _ ih =>
    have hfollow := ha.follow ht
    rw [hunion] at hfollow
    exact ih (hfollow.child hm)

theorem mono {b : Arena} (hext : a.Extends b) (hb : b.Acyclic) (h : Leads a t u) : Leads b t u := by
  induction h with
  | @here t hrigid =>
    have hstays : b.follow t = a.follow t := follow_stays hext hb fun v => hrigid.ne_var v
    exact hstays ▸ .here (hstays.symm ▸ hrigid)
  | @member t m u ms hunion hm _ ih =>
    have hstays : b.follow t = a.follow t := follow_stays hext hb fun v => by simp [hunion]
    exact .member (hstays.trans hunion) hm ih

/-- What a type leads to is not a variable at the top. -/
theorem ne_var (h : Leads a t u) (v : TyVar) : a.follow t ≠ .var v := by
  cases h with
  | here hrigid => exact hrigid.ne_var v
  | member hunion _ _ => simp [hunion]

end Leads

/-- **An alternative that is no variable is written somewhere.** -/
theorem leads_of_alternative {a : Arena} (ha : a.Acyclic) (hsolid : a.Solid) {t x : Ty} (ht : t.Solid)
    (hx : x ∈ (a.expose t).alternatives) (hrigid : x.IsRigid) : ∃ u, Leads a t u ∧ a.expose u = x := by
  -- for a type as written it follows from its variables, and for variables along bindings
  have hwritten : ∀ t : Ty, t.Solid → (∀ v ∈ t.vars, x ∈ (a.expose (.var v)).alternatives →
      ∃ u, Leads a (.var v) u ∧ a.expose u = x) → x ∈ (a.expose t).alternatives →
        ∃ u, Leads a t u ∧ a.expose u = x := by
    intro t
    induction t using Ty.rigidly with
    | var v => exact fun _ hvars hx => hvars v (by simp) hx
    | rigid t htop _ =>
      intro _ _ hx
      have hfollow : a.follow t = t := follow_of_ne_var fun v => htop.ne_var v
      rw [expose_unfold ha, htop.subst.alternatives] at hx
      refine ⟨a.follow t, .here (hfollow.symm ▸ htop), ?_⟩
      rw [hfollow, expose_unfold ha, mem_singleton.mp hx]
    | union ms ih =>
      intro hms hvars hx
      rw [expose_unfold ha] at hx
      have hx := mem_eraseDups.mpr hx
      rw [hms.alternatives_subst (hsolid.value ha), mem_eraseDups] at hx
      obtain ⟨m, hm, hx⟩ := mem_flatMap.mp hx
      rw [← expose_unfold ha] at hx
      obtain ⟨u, hu, hexpose⟩ :=
        ih m hm (hms.child hm) (fun v hv => hvars v (Ty.mem_vars_of_child (t := .union ms) hm hv)) hx
      exact ⟨u, .member (follow_of_ne_var (by simp)) hm hu, hexpose⟩
  suffices hvar : ∀ v : TyVar, x ∈ (a.expose (.var v)).alternatives → ∃ u, Leads a (.var v) u ∧ a.expose u = x from
    hwritten t ht (fun v _ => hvar v) hx
  intro v
  induction v using ha.induction with
  | unbound v hv =>
    intro hx
    rw [expose_unbound hv] at hx
    exact absurd hrigid (mem_singleton.mp hx ▸ fun h => h)
  | bound v u hu ih =>
    intro hx
    rw [expose_var ha, value_bound hu] at hx
    obtain ⟨w, hw, hexpose⟩ := hwritten u (hsolid v.id u hu) ih hx
    exact ⟨w, hw.congr (follow_bound ha hu), hexpose⟩

namespace Settles

variable {defs : Definitions} {a : Arena} {l r l' r' : Ty}

/-- Only what is found at the top matters. -/
theorem congr (ha : a.Acyclic) (h : Settles defs a l r) (hl : a.follow l' = a.follow l)
    (hr : a.follow r' = a.follow r) : Settles defs a l' r' := by
  cases h with
  | equal hequal =>
    refine .equal ?_
    rw [equivalent, ← expose_follow ha l', ← expose_follow ha r', hl, hr, expose_follow ha, expose_follow ha]
    exact hequal
  | all hplan hpairs =>
    rw [← hl, ← hr] at hplan
    exact .all hplan hpairs
  | any hplan ht hsettles =>
    rw [← hl, ← hr] at hplan
    exact .any hplan ht hsettles

theorem of_expose_eq (h : a.expose l = a.expose r) : Settles defs a l r := by
  refine .equal ?_
  rw [equivalent, h]
  exact Ty.equiv_refl _

/-- A member on the right is chosen, whatever is on the left. -/
theorem chooseRight (ha : a.Acyclic) (hl : ∀ v, a.follow l ≠ .var v) (hr : Leads a r r')
    (h : Settles defs a l r') : Settles defs a l r := by
  induction hr with
  | here _ => exact h.congr ha rfl (follow_follow ha _).symm
  | @member t m u ms hunion hm _ ih =>
    have hplan : plan defs a (a.follow l) (a.follow t) = .any (fun x => (a.follow l, x)) ms := by
      rw [hunion]
      cases htop : a.follow l with
      | var v => exact absurd htop (hl v)
      | _ => rfl
    exact .any hplan hm ((ih h).congr ha (follow_follow ha l) rfl)

/-- A member on the left is chosen where there is no choice on the right. -/
theorem chooseLeft (ha : a.Acyclic) (hr : (a.follow r).IsRigid) (hl : Leads a l l')
    (h : Settles defs a l' r) : Settles defs a l r := by
  induction hl with
  | here _ => exact h.congr ha (follow_follow ha _).symm rfl
  | @member t m u ms hunion hm _ ih =>
    have hplan : plan defs a (a.follow t) (a.follow r) = .any (fun x => (x, a.follow r)) ms := by
      rw [hunion]
      cases htop : a.follow r with
      | var v => exact absurd htop (hr.ne_var v)
      | union ns =>
        rw [htop] at hr
        exact hr.elim
      | _ => rfl
    exact .any hplan hm ((ih h).congr ha rfl (follow_follow ha r))

/-- **Two types are settled if members of them are.** -/
theorem choose (ha : a.Acyclic) (hl : Leads a l l') (hr : Leads a r r') (h : Settles defs a l' r') :
    Settles defs a l r := by
  have htop : a.follow r' = r' := follow_of_ne_var fun v => hr.rigid.ne_var v
  exact (h.chooseLeft ha (htop.symm ▸ hr.rigid) hl).chooseRight ha hl.ne_var hr

/-- Functions are settled if their results are, and their arguments in the order in which they are compared. -/
theorem func {x y z w : Ty} {p : Ty × Ty} (hl : a.follow l = .func x y) (hr : a.follow r = .func z w)
    (hp : p = if (a.follow x).isFunc then (z, x) else (x, z)) (hargument : Settles defs a p.1 p.2)
    (hresult : Settles defs a y w) : Settles defs a l r := by
  refine @Settles.all _ _ _ _ [p, (y, w)] ?_ (forall_mem_cons.mpr ⟨hargument, forall_mem_singleton.mpr hresult⟩)
  rw [hl, hr, hp, plan]

/-- Types that agree part by part are settled if their parts are, either way round. -/
theorem of_congruent (h : Ty.Congruent (fun x y => Settles defs a x y ∧ Settles defs a y x) l r) :
    Settles defs a l r := by
  cases l with
  | simple n =>
    cases r with
    | simple m => exact h ▸ of_expose_eq rfl
    | _ => exact h.elim
  | func b t =>
    cases r with
    | func b' t' =>
      refine .func (follow_of_ne_var (by simp)) (follow_of_ne_var (by simp)) rfl ?_ h.2.1
      split
      · exact h.1.2
      · exact h.1.1
    | _ => exact h.elim
  | record n as fs =>
    cases r with
    | record m bs gs =>
      obtain ⟨rfl, hargs, hnames, hfields⟩ := h
      refine @Settles.all _ _ _ _ (as.zip bs ++ (fs.map Prod.snd).zip (gs.map Prod.snd)) ?_ fun p hp => ?_
      · rw [follow_of_ne_var (by simp), follow_of_ne_var (by simp), plan, if_pos ⟨rfl, hnames⟩,
          Plan.pairwise, if_pos hargs.length_eq]
      · rcases mem_append.mp hp with hp | hp
        · exact (forall₂_zip hargs hp).1
        · exact (forall₂_zip hfields hp).1
    | _ => exact h.elim
  | algebraic n as os =>
    cases r with
    | algebraic m bs ps =>
      obtain ⟨rfl, hargs, hoptions⟩ := h
      refine @Settles.all _ _ _ _ (as.zip bs ++ os.zip ps) ?_ fun p hp => ?_
      · rw [follow_of_ne_var (by simp), follow_of_ne_var (by simp), plan, if_pos rfl,
          if_pos hoptions.length_eq, Plan.pairwise, if_pos hargs.length_eq]
      · rcases mem_append.mp hp with hp | hp
        · exact (forall₂_zip hargs hp).1
        · exact (forall₂_zip hoptions hp).1
    | _ => exact h.elim
  | recursive n as =>
    cases r with
    | recursive m bs =>
      obtain ⟨rfl, hargs⟩ := h
      refine @Settles.all _ _ _ _ (as.zip bs ++ []) ?_ fun p hp => ?_
      · rw [follow_of_ne_var (by simp), follow_of_ne_var (by simp), plan, if_pos rfl,
          Plan.pairwise, if_pos hargs.length_eq]
      · rw [append_nil] at hp
        exact (forall₂_zip hargs hp).1
    | _ => exact h.elim
  | union ms => exact h.elim
  | var v => exact h.elim

end Settles

/-! ## Equivalent types -/

/-- Types with the same alternatives are equivalent, whatever is bound. -/
theorem equivalent_of_same {b : Arena} (hb : b.Acyclic) (hsolid : b.Solid) {t u : Ty} (ht : t.Solid) (hu : u.Solid)
    (h : ∀ x, x ∈ t.alternatives ↔ x ∈ u.alternatives) : b.equivalent t u = true := by
  have halternatives : ∀ {t : Ty}, t.Solid → ∀ x, x ∈ (b.expose t).alternatives ↔
      ∃ m ∈ t.alternatives, x ∈ (m.subst b.value).alternatives := by
    intro t ht x
    rw [expose_unfold hb, ← mem_eraseDups, ht.alternatives_subst (hsolid.value hb), mem_eraseDups, mem_flatMap]
  refine Ty.equiv_of_same (hsolid.expose ht).2 (hsolid.expose hu).2 fun x => ?_
  rw [halternatives ht, halternatives hu]
  exact exists_congr fun m => and_congr_left fun _ => h m

section Equivalent

variable {F : Fragment} {a b : Arena} (hF : F.Coherent) (hfull : ¬F.hollow) (hext : a.Extends b) (hb : b.Acyclic)
  (hsolid : b.Solid) (hclosed : b.Closed F)
include hF hfull hext hb hsolid hclosed

/-- **Equivalent types are settled for good**, either way round. -/
theorem settles_of_equivalent {defs : Definitions} {l r : Ty} (hl : l.In F) (hr : r.In F)
    (h : a.equivalent l r = true) :
    Settles defs b l r ∧ Settles defs b r l := by
  have ha : a.Acyclic := .of_extends hext hb
  have hsolid' : a.Solid := fun id t ht => hsolid id t (hext.binding? ht)
  have hclosed' : a.Closed F := fun v t hv ht => hclosed v t hv (hext.binding? ht)
  generalize hu : a.expose l = u
  rw [equivalent, hu] at h
  -- along the exposed type on the left, of which members and parts are children
  induction u using Ty.childwise generalizing l r with
  | step u ih =>
    obtain ⟨hlength, hmatch⟩ := Ty.alternatives_of_equiv h
    by_cases hrigid : ∃ x ∈ u.alternatives, x.IsRigid
    · -- one alternative on the left that is no variable, and its counterpart on the right
      obtain ⟨x, hx, hxrigid⟩ := hrigid
      obtain ⟨y, hy, hxy⟩ := hmatch x hx
      obtain ⟨p, hp, hpx⟩ := leads_of_alternative ha hsolid' (hl.solid hfull) (hu ▸ hx) hxrigid
      obtain ⟨q, hq, hqy⟩ := leads_of_alternative ha hsolid' (hr.solid hfull) hy (hxrigid.of_equiv hxy)
      have hpq : Settles defs b p q ∧ Settles defs b q p := by
        by_cases hchild : x ∈ u.children
        · exact ih x hchild (hp.in hclosed' hl) (hq.in hclosed' hr) (hqy.symm ▸ hxy) hpx
        · have hux : u = x := by
            cases u with
            | union ms => exact absurd hx hchild
            | _ => exact (mem_singleton.mp hx).symm
          have hpin := hp.in hclosed' hl
          have hqin := hq.in hclosed' hr
          have hsubst : (p.subst a.value).equiv (q.subst a.value) = true := by
            rw [← expose_unfold ha, ← expose_unfold ha, hpx, hqy]
            exact hxy
          have hparts : ∀ c ∈ p.children, ∀ d ∈ q.children, (c.subst a.value).equiv (d.subst a.value) = true →
              Settles defs b c d ∧ Settles defs b d c := by
            intro c hc d hd hcd
            refine ih (c.subst a.value) ?_ (hpin.child hc) (hqin.child hd) ?_ (expose_unfold ha c)
            · rw [hux, ← hpx, expose_unfold ha, Ty.children_subst hp.rigid]
              exact mem_map_of_mem hc
            · rw [expose_unfold ha]
              exact hcd
          have hcongruent := Ty.congruent_of_equiv hp.rigid hq.rigid hsubst hparts
          exact ⟨.of_congruent hcongruent, .of_congruent (hcongruent.flip fun _ _ h => h.symm)⟩
      exact ⟨hpq.1.choose hb (hp.mono hext hb) (hq.mono hext hb), hpq.2.choose hb (hq.mono hext hb) (hp.mono hext hb)⟩
    · -- all alternatives are variables, and so they are the same on both sides
      have hnormal := hsolid'.expose (hl.solid hfull)
      have hnormal' := hsolid'.expose (hr.solid hfull)
      have hsubset : u.alternatives ⊆ (a.expose r).alternatives := by
        intro x hx
        obtain ⟨v, rfl⟩ := (hu ▸ hnormal.2).exists_var hx fun hx' => hrigid ⟨x, hx, hx'⟩
        obtain ⟨y, hy, hxy⟩ := hmatch _ hx
        cases y with
        | var w =>
          have hv : F.vars v := (hclosed'.expose hl).vars (Ty.mem_vars_alternatives.mp ⟨_, hu.symm ▸ hx, by simp⟩)
          have hw : F.vars w := (hclosed'.expose hr).vars (Ty.mem_vars_alternatives.mp ⟨_, hy, by simp⟩)
          rw [Ty.equiv, decide_eq_true_iff] at hxy
          rw [hF v w hv hw hxy]
          exact hy
        | _ => cases hxy
      have hperm : u.alternatives.Perm (a.expose r).alternatives :=
        (subperm_of_subset (hu ▸ hnormal.2).nodup hsubset).perm_of_length_le (Nat.le_of_eq hlength.symm)
      have hexpose : ∀ {t : Ty}, t.In F → b.expose (a.expose t) = b.expose t := fun ht =>
        expose_expose hext hsolid' hsolid hb (ht.solid hfull)
      have hequivalent := equivalent_of_same hb hsolid hnormal.1 hnormal'.1 fun x => hu.symm ▸ hperm.mem_iff
      have hequivalent' := equivalent_of_same hb hsolid hnormal'.1 hnormal.1 fun x => hu.symm ▸ hperm.mem_iff.symm
      rw [equivalent, hexpose hl, hexpose hr] at hequivalent
      rw [equivalent, hexpose hl, hexpose hr] at hequivalent'
      exact ⟨.equal hequivalent, .equal hequivalent'⟩

end Equivalent
end UnionTyping
