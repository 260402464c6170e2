import UnionTyping.Proofs.Ending
import UnionTyping.Proofs.Settling

/-!
# `Proofs.Commitment` — when unifying two types again changes nothing

Unification answers a choice among alternatives from the bindings of the moment. If several alternatives match, it
keeps what they have in common, and none of them is carried out. Bindings that are made later then need not be those
of any alternative; and a variable that is bound to a union of variables cannot be unified with one of them. So two
types that were unified may fail to unify when they are unified again (`second_unification_fails`).

It is different if the bindings that were made are those of a commitment: of comparing the types part by part with
one alternative picked wherever there is a choice (`Commits`). The pair is settled then (`Commits.settles`). The
bindings are of this kind if no choice is left open on the way, which is to say that an alternative needs no binding or
that only one matches (`decisive`, `commits_of_decisive`).
-/

namespace UnionTyping

open List Regime Arena

/-! ## Commitments -/

variable {pairs : List (Ty × Ty)}

/-- **Comparing pairs in order, with one alternative picked at each choice**, leads from an arena to `b`. -/
inductive Commits (defs : Definitions) (b : Arena) : List (Ty × Ty) → Arena → Prop where
  | done : Commits defs b [] b
  | equal {a : Arena} {l r : Ty} {rest : List (Ty × Ty)} : a.equivalent (a.follow l) (a.follow r) = true →
      Commits defs b rest a → Commits defs b ((l, r) :: rest) a
  | bind {a c : Arena} {l r t : Ty} {v : TyVar} {rest : List (Ty × Ty)} :
      plan defs a (a.follow l) (a.follow r) = .bind v t → a.occursWithin v t = false → a.bind? v.id t = .ok c →
      Commits defs b rest c → Commits defs b ((l, r) :: rest) a
  | all {a : Arena} {l r : Ty} {pairs rest : List (Ty × Ty)} :
      plan defs a (a.follow l) (a.follow r) = .all pairs true → Commits defs b (pairs ++ rest) a →
      Commits defs b ((l, r) :: rest) a
  | any {a : Arena} {l r t : Ty} {pair : Ty → Ty × Ty} {alternatives : List Ty} {rest : List (Ty × Ty)} :
      plan defs a (a.follow l) (a.follow r) = .any pair alternatives → t ∈ alternatives →
      Commits defs b (pair t :: rest) a → Commits defs b ((l, r) :: rest) a

section Plans

variable {defs : Definitions} {a b : Arena} {l r : Ty}

/-- A plan that binds no variable is about two types that are no variables. -/
theorem ne_var_of_plan {p : Plan} (hplan : plan defs a l r = p) (hp : ∀ v t, p ≠ .bind v t) :
    (∀ v, l ≠ .var v) ∧ ∀ v, r ≠ .var v := by
  subst hplan
  refine ⟨?_, ?_⟩
  · rintro v rfl
    cases r <;> exact hp _ _ rfl
  · rintro v rfl
    cases l <;> exact hp _ _ rfl

/-- Functions apart, a plan does not depend on bindings. -/
theorem plan_eq_of_ne_func (h : ∀ x y z w, ¬(l = .func x y ∧ r = .func z w)) : plan defs b l r = plan defs a l r := by
  cases l with
  | func x y =>
    cases r with
    | func z w => exact absurd ⟨rfl, rfl⟩ (h x y z w)
    | _ => rfl
  | _ => cases r <;> rfl

/-- Two lists are not known to be equal before they are compared. -/
theorem Plan.pairwise_ne_decide {ls rs : List Ty} {more : List (Ty × Ty)} {verdict : Bool} :
    Plan.pairwise ls rs more verdict ≠ .decide true := by
  unfold Plan.pairwise
  split <;> nofun

/-- What is known to be equal at once is one simple type. -/
theorem eq_of_plan (h : plan defs a l r = .decide true) : l = r := by
  revert h
  fun_cases plan defs a l r
  case case13 n m =>
      intro h
      have hname : n = m := of_decide_eq_true (Plan.decide.inj h)
      rw [hname]
  case case5 | case8 | case11 | case15 | case17 | case18 => exact fun h => absurd h Plan.pairwise_ne_decide
  all_goals
    intro h
    cases h

/-- What a plan goes on with is of the fragment that types and bindings are of. -/
theorem in_of_plan {F : Fragment} (hdefs : defs.In F) (hclosed : b.Closed F) (hext : a.Extends b) (hl : l.In F)
    (hr : r.In F) {p : Plan} (hplan : plan defs a (a.follow l) (a.follow r) = p) :
    ∀ q ∈ p.pairs, q.1.In F ∧ q.2.In F := by
  have hearlier : a.Closed F := fun v t hv ht => hclosed v t hv (hext.binding? ht)
  intro q hq
  rw [← hplan] at hq
  exact (plan_pairs hq).in hdefs (hearlier.follow hl) (hearlier.follow hr)

/-- Once a variable is bound as planned, it stands for the type for good, so both sides are seen alike. -/
theorem expose_eq_of_bind {c : Arena} {t : Ty} {v : TyVar} (hplan : plan defs a (a.follow l) (a.follow r) = .bind v t)
    (hbind : a.bind? v.id t = .ok c) (hext : c.Extends b) (hb : b.Acyclic) : b.expose l = b.expose r := by
  have hgrows : a.Extends b := (Binds.of_bind hbind).grows.trans hext
  have hfollow : ∀ t, b.expose (a.follow t) = b.expose t := by
    intro t
    rw [← expose_follow hb (a.follow t), follow_extends hgrows hb, expose_follow hb]
  have hbound : b.expose (.var v) = b.expose t := by
    have hbinding : c.binding? v.id = some t := by rw [binding?_bind hbind, if_pos rfl]
    rw [expose_var hb, value_bound (hext.binding? hbinding)]
  rw [← hfollow l, ← hfollow r]
  rcases plan_eq_bind hplan with ⟨hl, hr⟩ | ⟨hl, hr⟩
  · rw [hl, hr, hbound]
  · rw [hl, hr, hbound]

/-- **Types whose parts have come to be settled are settled.** The arguments of functions may be compared the other way
    round by now, but only if the first was unbound. -/
theorem Settles.of_all (hext : a.Extends b) (hb : b.Acyclic)
    (hplan : plan defs a (a.follow l) (a.follow r) = .all pairs true) (hpairs : ∀ p ∈ pairs, Settles defs b p.1 p.2)
    (hfirst : ∀ p ∈ pairs.head?, ∀ v, a.follow p.1 = .var v → Settles defs b p.2 p.1) : Settles defs b l r := by
  obtain ⟨hltop, hrtop⟩ := ne_var_of_plan hplan (by simp)
  have hl : b.follow l = a.follow l := follow_stays hext hb hltop
  have hr : b.follow r = a.follow r := follow_stays hext hb hrtop
  by_cases hfunc : ∃ x y z w, a.follow l = .func x y ∧ a.follow r = .func z w
  · obtain ⟨x, y, z, w, hlfunc, hrfunc⟩ := hfunc
    rw [hlfunc, hrfunc, plan] at hplan
    obtain ⟨rfl, -⟩ := Plan.all.inj hplan
    obtain ⟨harguments, hresults⟩ := forall_mem_cons.mp hpairs
    refine .func (hl.trans hlfunc) (hr.trans hrfunc) rfl ?_ (hresults _ mem_cons_self)
    by_cases hvar : ∃ v, a.follow x = .var v
    · obtain ⟨v, hv⟩ := hvar
      have hother := hfirst _ rfl v
      rw [hv] at harguments hother
      split
      · exact hother hv
      · exact harguments
    · rw [follow_stays hext hb fun v hv => hvar ⟨v, hv⟩]
      exact harguments
  · have hplan' : plan defs b (b.follow l) (b.follow r) = .all pairs true := by
      rw [hl, hr, ← hplan]
      exact plan_eq_of_ne_func fun x y z w h => hfunc ⟨x, y, z, w, h⟩
    exact .all hplan' hpairs

/-- Types are settled if an alternative has come to be. -/
theorem Settles.of_any {t : Ty} {pair : Ty → Ty × Ty} {alternatives : List Ty} (hext : a.Extends b) (hb : b.Acyclic)
    (hplan : plan defs a (a.follow l) (a.follow r) = .any pair alternatives) (ht : t ∈ alternatives)
    (h : Settles defs b (pair t).1 (pair t).2) : Settles defs b l r := by
  obtain ⟨hltop, hrtop⟩ := ne_var_of_plan hplan (by simp)
  have hplan' : plan defs b (b.follow l) (b.follow r) = .any pair alternatives := by
    rw [follow_stays hext hb hltop, follow_stays hext hb hrtop, ← hplan]
    refine plan_eq_of_ne_func ?_
    rintro x y z w ⟨hx, hz⟩
    rw [hx, hz, plan] at hplan
    cases hplan
  exact .any hplan' ht h

end Plans

theorem Commits.binds {defs : Definitions} {a b : Arena} (h : Commits defs b pairs a) : a.Binds b := by
  induction h with
  | done => exact .refl b
  | equal _ _ ih => exact ih
  | bind _ _ hbind _ ih => exact (Binds.of_bind hbind).trans ih
  | all _ _ ih => exact ih
  | any _ _ _ ih => exact ih

section Settles

variable {F : Fragment} {defs : Definitions} {b : Arena} (hF : F.Coherent) (hfull : ¬F.hollow) (hdefs : defs.In F)
  (hb : b.Acyclic) (hsolid : b.Solid) (hclosed : b.Closed F)
include hF hfull hdefs hb hsolid hclosed

/-- **What is committed to is settled in the end.** If the first pair begins with an unbound variable, it is settled
    the other way round as well. -/
theorem Commits.settles {a : Arena} (h : Commits defs b pairs a) (hpairs : ∀ p ∈ pairs, p.1.In F ∧ p.2.In F) :
    (∀ p ∈ pairs, Settles defs b p.1 p.2) ∧ ∀ p ∈ pairs.head?, ∀ v, a.follow p.1 = .var v → Settles defs b p.2 p.1 := by
  induction h with
  | done => exact ⟨by simp, fun p hp => absurd hp (Option.not_mem_none p)⟩
  | @equal a l r rest hequal hrest ih =>
    obtain ⟨⟨hl, hr⟩, hmore⟩ := forall_mem_cons.mp hpairs
    have hext := hrest.binds.grows
    have ha : a.Acyclic := .of_extends hext hb
    rw [equivalent, expose_follow ha, expose_follow ha] at hequal
    have hsettles : Settles defs b l r ∧ Settles defs b r l :=
      settles_of_equivalent hF hfull hext hb hsolid hclosed hl hr hequal
    refine ⟨forall_mem_cons.mpr ⟨hsettles.1, (ih hmore).1⟩, ?_⟩
    rintro p ⟨⟩ _ _
    exact hsettles.2
  | @bind a c l r t v rest hplan _ hbind hrest ih =>
    obtain ⟨-, hmore⟩ := forall_mem_cons.mp hpairs
    have hsame : b.expose l = b.expose r := expose_eq_of_bind hplan hbind hrest.binds.grows hb
    refine ⟨forall_mem_cons.mpr ⟨.of_expose_eq hsame, (ih hmore).1⟩, ?_⟩
    rintro p ⟨⟩ _ _
    exact .of_expose_eq hsame.symm
  | @all a l r pairs rest hplan hrest ih =>
    obtain ⟨⟨hl, hr⟩, hmore⟩ := forall_mem_cons.mp hpairs
    have hext := hrest.binds.grows
    have hparts : ∀ p ∈ pairs, p.1.In F ∧ p.2.In F := in_of_plan hdefs hclosed hext hl hr hplan
    obtain ⟨hsettles, hfirst⟩ := ih (forall_mem_append.mpr ⟨hparts, hmore⟩)
    obtain ⟨hown, hothers⟩ := forall_mem_append.mp hsettles
    refine ⟨forall_mem_cons.mpr ⟨.of_all hext hb hplan hown fun p hp => hfirst p ?_, hothers⟩, ?_⟩
    · rw [head?_append, Option.mem_def.mp hp]
      rfl
    · rintro p ⟨⟩ v hv
      exact absurd hv ((ne_var_of_plan hplan (by simp)).1 v)
  | @any a l r t pair alternatives rest hplan ht hrest ih =>
    obtain ⟨⟨hl, hr⟩, hmore⟩ := forall_mem_cons.mp hpairs
    have hext := hrest.binds.grows
    have hpart := in_of_plan hdefs hclosed hext hl hr hplan (pair t) (mem_map_of_mem ht)
    obtain ⟨hchosen, hothers⟩ := forall_mem_cons.mp (ih (forall_mem_cons.mpr ⟨hpart, hmore⟩)).1
    refine ⟨forall_mem_cons.mpr ⟨.of_any hext hb hplan ht hchosen, hothers⟩, ?_⟩
    rintro p ⟨⟩ v hv
    exact absurd hv ((ne_var_of_plan hplan (by simp)).1 v)

end Settles

/-! ## Choices that are decided -/

/-- Several alternatives match, and each needs bindings of its own. -/
def Search.isOpen : Search → Bool
  | .found (_ :: _ :: _) => true
  | _ => false

/-- Whether a plan tries alternatives and leaves open which. -/
def Plan.isOpen (next : Comparison) (level : Nat) (s : Store) : Plan → Bool
  | .any pair alternatives =>
      (tryAlternatives (fun t => next (pair t).1 (pair t).2 (level + 1)) alternatives s).any (·.1.isOpen)
  | _ => false

/-- **The recursion that leaves no choice open**: it is given up where several alternatives match. -/
def decisive (defs : Definitions) : (depth : Nat) → Comparison
  | 0 => fun _ _ _ _ => none
  | depth + 1 => fun left right level s =>
      let l := s.arena.follow left
      let r := s.arena.follow right
      let noted := s.note .trace fun _ => indent level ++ "unify: " ++ s.shown l ++ " = " ++ s.shown r
      if !s.arena.equivalent l r && (plan defs s.arena l r).isOpen (decisive defs depth) level noted then none
      else compareStep defs (decisive defs depth) left right level s

section Decisive

variable {s' : Store} {defs : Definitions}

/-- Where no choice is left open, the answer is that of the recursion. -/
theorem decisive_unfolds (depth : Nat) : (decisive defs depth).Limit (unfolded defs) := by
  induction depth with
  | zero =>
    intro l r level s out hrun
    cases hrun
  | succ depth ih =>
    refine unfolded_tends fun l r level s out hrun => ?_
    unfold decisive at hrun
    extract_lets at hrun
    split at hrun
    · cases hrun
    · exact compareStep_tends defs ih l r level s out hrun

theorem decisive_binds (depth : Nat) : (decisive defs depth).Binding := by
  induction depth with
  | zero =>
    intro l r level s ok s' hrun
    cases hrun
  | succ depth ih =>
    intro l r level s ok s' hrun
    unfold decisive at hrun
    extract_lets at hrun
    split at hrun
    · cases hrun
    · exact compareStep_binds ih l r level s ok s' hrun

/-- **Committing.** Where the comparison succeeds, what is committed to afterwards can be committed to together with
    the pair before. -/
abbrev Comparison.Committing (defs : Definitions) (compare : Comparison) : Prop :=
  compare.Meets fun l r s ok s' => ok = true →
    ∀ b rest, Commits defs b rest s'.arena → Commits defs b ((l, r) :: rest) s.arena

theorem compareAll_commits {s : Store} {next : Comparison} (hnext : next.Committing defs) {level : Nat}
    {verdict : Bool} (h : compareAll next level verdict pairs s = some (true, s')) :
    verdict = true ∧ ∀ b rest, Commits defs b rest s'.arena → Commits defs b (pairs ++ rest) s.arena := by
  induction pairs generalizing s with
  | nil =>
    cases h
    exact ⟨rfl, fun _ _ h => h⟩
  | cons p ps ih =>
    unfold compareAll at h
    obtain ⟨⟨ok, s₁⟩, hfirst, h⟩ := Option.bind_eq_some_iff.mp h
    cases ok with
    | false => cases h
    | true =>
      obtain ⟨hverdict, hmore⟩ := ih h
      exact ⟨hverdict, fun b rest hrest => hnext _ _ _ _ _ _ hfirst rfl b _ (hmore b rest hrest)⟩

/-- A variable is bound unless it is a proper part of the type. -/
theorem bindTo_true {s : Store} {v : TyVar} {t : Ty} (h : bindTo v t s = (true, s')) :
    s.arena.occursWithin v t = false ∧ ∃ b, s.arena.bind? v.id t = .ok b ∧ s'.arena = b := by
  unfold bindTo at h
  split at h
  · cases h
  · rename_i hoccurs
    refine ⟨by simpa using hoccurs, ?_⟩
    rcases s.bind_cases v.id t with ⟨b, hbind, -, hb⟩ | ⟨-, hfails, -⟩
    · rw [h] at hb
      exact ⟨b, hbind, hb⟩
    · rw [h] at hfails
      cases hfails

/-- What is not open picks one alternative. -/
theorem compareAlternatives_picks {attempt : Attempt}
    (hattempt : ∀ t s ok s', attempt t s = some (ok, s') → s.arena.Binds s'.arena) {level : Nat}
    {alternatives : List Ty} (hclosed : (tryAlternatives attempt alternatives s).any (·.1.isOpen) = false)
    (h : compareAlternatives attempt level alternatives s = some (true, s')) :
    ∃ t ∈ alternatives, ∃ before after : Store, before.arena = s.arena ∧ attempt t before = some (true, after) ∧
      after.arena = s'.arena := by
  unfold compareAlternatives at h
  obtain ⟨⟨search, s₁⟩, hsearch, h⟩ := Option.bind_eq_some_iff.mp h
  obtain ⟨hsame, hfrom⟩ := tryAlternatives_spec hattempt hsearch
  rw [hsearch, Option.any_some] at hclosed
  match search, h, hfrom with
  | .settled, h, hfrom =>
    cases h
    rw [hsame]
    exact hfrom
  | .found [], h, _ => cases h
  | .found [only], h, hfrom => exact ⟨_, (hfrom _ mem_cons_self).1, s₁, s', hsame, h, rfl⟩
  | .found (first :: second :: more), h, _ => cases hclosed

theorem decisive_committing (depth : Nat) : (decisive defs depth).Committing defs := by
  induction depth with
  | zero =>
    intro l r level s ok s' hrun
    cases hrun
  | succ depth ih =>
    rintro l r level s ok s' hrun rfl b rest hrest
    unfold decisive at hrun
    extract_lets left right noted at hrun
    split at hrun
    · cases hrun
    rename_i hdecided
    unfold compareStep at hrun
    extract_lets before at hrun
    split at hrun
    · rename_i hequal
      obtain ⟨-, hbefore⟩ := Prod.mk.inj (Option.some.inj hrun)
      rw [← hbefore] at hrest
      exact .equal hequal hrest
    rename_i hequal
    have hunequal : s.arena.equivalent left right = false := Bool.eq_false_iff.mpr hequal
    rw [hunequal, Bool.not_false, Bool.true_and, Bool.not_eq_true] at hdecided
    obtain ⟨⟨ok, after⟩, hcases, hrun⟩ := Option.bind_eq_some_iff.mp hrun
    cases hrun
    rw [compareCases_eq_run] at hcases
    change (plan defs s.arena left right).run (decisive defs depth) level noted = some (true, after) at hcases
    cases hplan : plan defs s.arena left right with
    | decide verdict =>
      rw [hplan] at hcases
      cases hcases
      exact absurd (eq_of_plan hplan ▸ Ty.equiv_refl _) hequal
    | bind v t =>
      rw [hplan] at hcases
      obtain ⟨hoccurs, c, hbind, hafter⟩ := bindTo_true (Option.some.inj hcases)
      refine .bind hplan hoccurs hbind ?_
      rw [← hafter]
      exact hrest
    | all pairs verdict =>
      rw [hplan] at hcases
      obtain ⟨rfl, hmore⟩ := compareAll_commits ih hcases
      exact .all hplan (hmore b rest hrest)
    | any pair alternatives =>
      rw [hplan] at hcases hdecided
      obtain ⟨t, ht, start, done, hstart, hattempt, hdone⟩ :=
        compareAlternatives_picks (fun t s ok s' h => decisive_binds _ _ _ _ s ok s' h) hdecided hcases
      refine .any hplan ht ?_
      have hpair := ih _ _ _ _ _ _ hattempt rfl b rest (hdone ▸ hrest)
      rw [hstart] at hpair
      exact hpair

end Decisive

/-! ## Unifying twice -/

/-- The owned variables, and all constructors but placeholders and unions without members. -/
def Regime.definite : Regime where
  fragment a := ⟨fun v => a.name? v.id = some v.name, True, False, False, True⟩
  base := 0
  choices _ := trivial
  grow h := ⟨fun v hv => (h.name? _ (lt_size_of_name? hv)).trans hv, id, id, id, id⟩
  old h hv hlt := (h.name? _ hlt).symm.trans hv
  fresh a _ := a.name?_fresh_self
  placeholders _ h := h
  steady h := by simp [h]

/-- The type is owned, has members in all its unions and no placeholder. -/
structure Arena.Admits (a : Arena) (t : Ty) : Prop where
  owned : a.Owns t
  solid : t.Solid
  explicit : t.Explicit

/-- **An arena without cycles, empty unions and placeholders.** -/
structure Arena.Definite (a : Arena) : Prop where
  acyclic : a.Acyclic
  bindings : ∀ id t, a.binding? id = some t → a.Admits t

namespace Regime

variable {a : Arena}

theorem definite_coherent (a : Arena) : (definite.fragment a).Coherent :=
  unrolled_coherent a

theorem in_definite {t : Ty} : t.In (definite.fragment a) ↔ a.Admits t := by
  constructor
  · intro h
    have hexplicit : t.In .explicit := h.mono ⟨fun _ _ => trivial, id, id, id, id⟩
    obtain ⟨hsolid, hexplicit⟩ := Ty.in_explicit.mp hexplicit
    exact ⟨fun v hv => h.vars hv, hsolid, hexplicit⟩
  · rintro ⟨howned, hsolid, hexplicit⟩ u hu
    cases u with
    | var v => exact howned v (Ty.var_mem_subterms.mp hu)
    | _ => exact (Ty.in_explicit.mpr ⟨hsolid, hexplicit⟩) _ hu

theorem definite_holds {defs : Definitions} (ha : a.Definite) : definite.Holds defs a :=
  ⟨Nat.zero_le _, fun v u _ hu => in_definite.mpr (ha.bindings v.id u hu), fun h => h.elim⟩

theorem definite_of_keeps {b : Arena} (h : definite.Keeps a b) (ha : a.Definite) : b.Definite := by
  refine ⟨h.acyclic definite_coherent ha.acyclic, fun id t ht => ?_⟩
  obtain ⟨n, hn⟩ := name?_of_lt (lt_size_of_binding? ht)
  exact in_definite.mp (h.closed ⟨id, n⟩ t hn ht)

end Regime

theorem new_definite (home : String) (tracing : Bool) : (Context.new home tracing).store.arena.Definite := by
  refine ⟨(Context.Reachable.new home tracing).wellFormed.arena.acyclic, fun id t ht => ?_⟩
  rw [Context.binding?_new] at ht
  cases ht

theorem Arena.Definite.fresh {c : Context} (hc : c.store.arena.Definite) : c.fresh.2.store.arena.Definite := by
  have hholds : definite.Holds c.definitions c.store.arena := definite_holds hc
  exact definite_of_keeps (.of_same hholds.closed (.of_fresh _) (binding?_fresh _)) hc

/-- Unifying the two types succeeds, and it binds no variable. -/
def Context.Rests (c : Context) (l r : Ty) : Prop :=
  (c.unify l r).1 = .unified ∧ (c.unify l r).2.store.arena = c.store.arena

section Rests

variable {c : Context} {l r : Ty} (hc : c.store.arena.Definite) (hl : c.store.arena.Admits l)
  (hr : c.store.arena.Admits r)
include hc hl hr

theorem Arena.Definite.unify : (c.unify l r).2.store.arena.Definite ∧ (c.unify l r).2.store.arena.Admits l ∧
    (c.unify l r).2.store.arena.Admits r := by
  have hkeeps : definite.Keeps c.store.arena (c.unify l r).2.store.arena :=
    unify_keeps (definite_holds hc) (in_definite.mpr hl) (in_definite.mpr hr)
  exact ⟨definite_of_keeps hkeeps hc, in_definite.mp (hkeeps.in (in_definite.mpr hl)),
    in_definite.mp (hkeeps.in (in_definite.mpr hr))⟩

/-- Settled pairs rest. -/
theorem Settles.rests (h : Settles c.definitions c.store.arena l r) : c.Rests l r := by
  have hholds : definite.Holds c.definitions c.store.arena := definite_holds hc
  exact unify_settled hc.acyclic h (unify_ends (definite_coherent _) not_false (in_definite.mpr hl)
    (in_definite.mpr hr) hholds.closed hc.acyclic)

/-- Bindings of a commitment settle the pair. -/
theorem settles_of_commits (h : Commits c.definitions (c.unify l r).2.store.arena [(l, r)] c.store.arena) :
    Settles c.definitions (c.unify l r).2.store.arena l r := by
  obtain ⟨hafter, hl', hr'⟩ := hc.unify hl hr
  have hholds : definite.Holds c.definitions (c.unify l r).2.store.arena := definite_holds hafter
  have hsolid : (c.unify l r).2.store.arena.Solid := fun id t ht => (hafter.bindings id t ht).solid
  refine (h.settles (definite_coherent _) not_false hholds.defs hafter.acyclic hsolid hholds.closed ?_).1 _
    mem_cons_self
  exact forall_mem_singleton.mpr ⟨in_definite.mpr hl', in_definite.mpr hr'⟩

/-- First-order types that were unified are equal. -/
theorem settles_of_firstOrder (hlfirst : l.FirstOrder) (hrfirst : r.FirstOrder)
    (hfirst : ∀ id t, c.store.arena.binding? id = some t → t.FirstOrder) (hunified : (c.unify l r).1 = .unified) :
    Settles c.definitions (c.unify l r).2.store.arena l r := by
  have hready : c.store.arena.Ready c.store.arena.firstOrder :=
    ⟨fun v t _ ht => in_firstOrder (hc.bindings v.id t ht).owned (hfirst v.id t ht), hc.acyclic,
      fun v hv => lt_size_of_name? hv⟩
  obtain ⟨hready', hdecides⟩ := unify_decides (s := c.store) c.store.arena.firstOrder_firstOrder
    (in_firstOrder hl.owned hlfirst) (in_firstOrder hr.owned hrfirst) hready
  exact .of_expose_eq (hdecides.sound hready' (decide_eq_true hunified))

end Rests

/-- **A unification that leaves no choice open commits itself.** -/
theorem commits_of_decisive {c : Context} {l r : Ty} (hunified : (c.unify l r).1 = .unified) {depth : Nat}
    (hdecided : (decisive c.definitions depth l r 0 c.store).isSome) :
    Commits c.definitions (c.unify l r).2.store.arena [(l, r)] c.store.arena := by
  have hends : (c.store.unify c.definitions l r).1 ≠ .endless := by
    intro hendless
    cases hunified.symm.trans hendless
  obtain ⟨⟨ok, after⟩, hrun⟩ := Option.isSome_iff_exists.mp hdecided
  obtain ⟨ok', after', hunfolds, hunify⟩ := unify_unfolds hends
  -- both answers are those of the recursion
  obtain ⟨n, hn, hn'⟩ := ((decisive_unfolds depth _ _ _ _ _ hrun).and hunfolds).exists
  obtain ⟨rfl, rfl⟩ := Prod.mk.inj (Option.some.inj (hn.symm.trans hn'))
  cases ok with
  | false =>
    have hmismatch : (c.unify l r).1 = .mismatch := congrArg Prod.fst hunify
    cases hunified.symm.trans hmismatch
  | true =>
    have hafter : (c.unify l r).2.store = after := congrArg Prod.snd hunify
    rw [hafter]
    exact decisive_committing depth _ _ _ _ _ _ hrun rfl after.arena [] .done

/-- **When a second unification changes nothing.** Two types that were unified are unified again, and no variable is
    bound, if the bindings made settle them. Bindings of a commitment do; bindings are of this kind if no choice was
    left open; and there is no choice to be made if all types are first-order. -/
theorem second_unification_rests (c : Context) (l r : Ty) (hc : c.store.arena.Definite)
    (hl : c.store.arena.Admits l) (hr : c.store.arena.Admits r) (hunified : (c.unify l r).1 = .unified) :
    let after := (c.unify l r).2
    (Settles c.definitions after.store.arena l r → after.Rests l r) ∧
    (Commits c.definitions after.store.arena [(l, r)] c.store.arena → Settles c.definitions after.store.arena l r) ∧
    (∀ depth, (decisive c.definitions depth l r 0 c.store).isSome →
      Commits c.definitions after.store.arena [(l, r)] c.store.arena) ∧
    (l.FirstOrder → r.FirstOrder → (∀ id t, c.store.arena.binding? id = some t → t.FirstOrder) →
      Settles c.definitions after.store.arena l r) := by
  intro after
  obtain ⟨hafter, hl', hr'⟩ := hc.unify hl hr
  refine ⟨fun hsettles => ?_, fun hcommits => ?_, fun depth hdecided => ?_, fun hlfirst hrfirst hfirst => ?_⟩
  · exact Settles.rests hafter hl' hr' hsettles
  · exact settles_of_commits hc hl hr hcommits
  · exact commits_of_decisive hunified hdecided
  · exact settles_of_firstOrder hc hl hr hlfirst hrfirst hfirst hunified

/-- Of the alternatives on the left only the function matches. It binds the variable that the other argument is,
    and the one in the result. -/
theorem second_unification_rests_chosen :
    let c := (Context.new "main" false).fresh.2.fresh.2.fresh.2
    let l := Ty.func (.union [.func (.var ⟨2, "t2"⟩) .integer, .string]) (.var ⟨2, "t2"⟩)
    let r := Ty.func (.func .boolean (.var ⟨3, "t3"⟩)) (.var ⟨4, "t4"⟩)
    (c.unify l r).1 = .unified ∧ (c.unify l r).2.store.arena ≠ c.store.arena ∧ (c.unify l r).2.Rests l r := by
  intro c l r
  have hc : c.store.arena.Definite := .fresh (.fresh (.fresh (new_definite "main" false)))
  have hunified : (c.unify l r).1 = .unified := by decide +kernel
  obtain ⟨hrests, hsettles, hcommits, -⟩ := second_unification_rests c l r hc
    ⟨by decide +kernel, by decide +kernel, by decide +kernel⟩ ⟨by decide +kernel, by decide +kernel, by decide +kernel⟩
    hunified
  have hdecided : (decisive c.definitions 4 l r 0 c.store).isSome := by decide +kernel
  exact ⟨hunified, by decide +kernel, hrests (hsettles (hcommits 4 hdecided))⟩

/-- **Unifying again can fail.** Both alternatives match, so the argument on the right is bound to the union of the
    two variables. Neither variable can be unified with that union the next time. -/
theorem second_unification_fails :
    let c := (Context.new "main" false).fresh.2.fresh.2.fresh.2
    let l := Ty.union [.func (.var ⟨2, "t2"⟩) .integer, .func (.var ⟨3, "t3"⟩) .integer]
    let r := Ty.func (.var ⟨4, "t4"⟩) .integer
    c.store.arena.Definite ∧ c.store.arena.Admits l ∧ c.store.arena.Admits r ∧ (c.unify l r).1 = .unified ∧
      ((c.unify l r).2.unify l r).1 = .mismatch := by
  intro c l r
  exact ⟨.fresh (.fresh (.fresh (new_definite "main" false))),
    ⟨by decide +kernel, by decide +kernel, by decide +kernel⟩,
    ⟨by decide +kernel, by decide +kernel, by decide +kernel⟩, by decide +kernel, by decide +kernel⟩

end UnionTyping
