import UnionTyping.Proofs.Parallel
import UnionTyping.Proofs.Unfolding

/-!
# `Proofs.Following` — the solver in two arenas at once

The solver is asked the same two questions, about types that are alike, in arenas that are in step. Then it gives the
same answers, and the arenas are in step afterwards (`unify_follows`, `apply_follows`). For a comparison this is shown
for one step, given that it holds for the steps below it (`compareStep_follows`); the counts that end a comparison may
differ between the two sides, so the induction is over the recursion behind it.

All statements lead from left to right. Since the relation between the sides can be read both ways, so can they.
-/

namespace UnionTyping

open List Store Ty Fragment

open Arena (Parallel Twins)

/-! ## Plans -/

variable {defs : Definitions} {A B : Arena}

/-- **The plans do the same**, about types that are alike. -/
inductive Plan.Alike (R : TyVar → TyVar → Prop) : Plan → Plan → Prop where
  | decide (verdict : Bool) : Alike R (.decide verdict) (.decide verdict)
  | bind {v w : TyVar} {t u : Ty} : R v w → Ty.Alike R t u → Alike R (.bind v t) (.bind w u)
  | all {ps qs : List (Ty × Ty)} (verdict : Bool) :
      Forall₂ (fun p q => Ty.Alike R p.1 q.1 ∧ Ty.Alike R p.2 q.2) ps qs →
      Alike R (.all ps verdict) (.all qs verdict)
  | any {pair pair' : Ty → Ty × Ty} {ts us : List Ty} :
      (∀ t u, Ty.Alike R t u → Ty.Alike R (pair t).1 (pair' u).1 ∧ Ty.Alike R (pair t).2 (pair' u).2) →
      Forall₂ (Ty.Alike R) ts us → Alike R (.any pair ts) (.any pair' us)

/-- **What is planned** depends on how the types are built and on nothing else. Definitions play no part. -/
theorem plan_alike {defs' : Definitions} {a b : Arena} (h : Arena.Twins A B a b) {l r l' r' : Ty}
    (hl : Alike (A.Twin B) l l') (hr : Alike (A.Twin B) r r') :
    Plan.Alike (A.Twin B) (plan defs a l r) (plan defs' b l' r') := by
  have hall := hl
  have hall' := hr
  cases hr with
  | var hvw => cases hl <;> exact .bind hvw hall
  | simple n =>
    cases hl with
    | var hvw => exact .bind hvw hall'
    | union hms => exact .any (fun t u htu => ⟨htu, hall'⟩) hms
    | simple m => exact .decide _
    | func ha hr => exact .decide false
  | union hms =>
    cases hl with
    | var hvw => exact .bind hvw hall'
    | union _ => exact .any (fun t u htu => ⟨hall, htu⟩) hms
    | simple m => exact .any (fun t u htu => ⟨hall, htu⟩) hms
    | func _ _ => exact .any (fun t u htu => ⟨hall, htu⟩) hms
  | func ha₂ hr₂ =>
    cases hl with
    | var hvw => exact .bind hvw hall'
    | union hms => exact .any (fun t u htu => ⟨htu, hall'⟩) hms
    | simple m => exact .decide false
    | @func a₁ b₁ r₁ t₁ ha₁ hr₁ =>
      simp only [plan]
      refine .all true (.cons ?_ (.cons ⟨hr₁, hr₂⟩ .nil))
      -- whether the parameters are compared the other way round is the same question on both sides
      rw [(h.mirrors.follow ha₁).isFunc]
      split
      · exact ⟨ha₂, ha₁⟩
      · exact ⟨ha₁, ha₂⟩

/-! ## Answers -/

variable {s s' : Store} {level : Nat} {f g : Comparison}

/-- **Where the left side has an answer, the right side has the same**, and the arenas are in the relation then. -/
def Answers (P : Arena → Arena → Prop) (x y : Option (Bool × Store)) : Prop :=
  ∀ ok s, x = some (ok, s) → ∃ s', y = some (ok, s') ∧ P s.arena s'.arena

/-- **The second comparison follows the first.** -/
def Comparison.Follows (A B : Arena) (f g : Comparison) : Prop :=
  ∀ l r l' r' level (s s' : Store), Alike (A.Twin B) l l' → Alike (A.Twin B) r r' →
    Twins A B s.arena s'.arena → Answers (Twins A B) (f l r level s) (g l' r' level s')

theorem compareAll_follows (h : Comparison.Follows A B f g) {verdict : Bool} {ps qs : List (Ty × Ty)}
    (hpairs : Forall₂ (fun p q => Alike (A.Twin B) p.1 q.1 ∧ Alike (A.Twin B) p.2 q.2) ps qs)
    (hs : Twins A B s.arena s'.arena) :
    Answers (Twins A B) (compareAll f level verdict ps s) (compareAll g level verdict qs s') := by
  induction hpairs generalizing s s' with
  | nil =>
    intro ok x hrun
    cases hrun
    exact ⟨s', rfl, hs⟩
  | cons hpq _ ih =>
    intro ok x hrun
    unfold compareAll at hrun ⊢
    obtain ⟨⟨ok₁, s₁⟩, hfirst, hrun⟩ := Option.bind_eq_some_iff.mp hrun
    obtain ⟨s₁', hfirst', hs₁⟩ := h _ _ _ _ level s s' hpq.1 hpq.2 hs ok₁ s₁ hfirst
    simp only [hfirst', Option.bind_eq_bind, Option.bind_some]
    cases ok₁ with
    | false =>
      cases hrun
      exact ⟨s₁', rfl, hs₁⟩
    | true => exact ih hs₁ ok x hrun

/-! ## Alternatives -/

variable {x : Store}

/-- The same alternative has succeeded on both sides, with bindings of twins. -/
def Success.Alike (A B : Arena) (x y : Success) : Prop :=
  Ty.Alike (A.Twin B) x.alternative y.alternative ∧ Forall₂ (A.Entries B) x.bindings y.bindings

/-- The searches have come to the same. -/
inductive Search.Alike (A B : Arena) : Search → Search → Prop where
  | settled : Alike A B .settled .settled
  | found {xs ys : List Success} : Forall₂ (Success.Alike A B) xs ys → Alike A B (.found xs) (.found ys)

/-! ### What several successes have in common -/

theorem rel_mapM {α β γ δ : Type} {R : α → β → Prop} {S : γ → δ → Prop} {f : α → Option γ} {g : β → Option δ}
    {xs : List α} {ys : List β} (h : Forall₂ R xs ys) (hfg : ∀ x y, R x y → Option.Rel S (f x) (g y)) :
    Option.Rel (Forall₂ S) (xs.mapM f) (ys.mapM g) := by
  induction h with
  | nil => exact .some .nil
  | @cons x y xs ys hxy _ ih =>
    rw [mapM_cons, mapM_cons]
    have hhead := hfg x y hxy
    generalize f x = c at hhead
    generalize g y = d at hhead
    generalize xs.mapM f = cs at ih
    generalize ys.mapM g = ds at ih
    cases hhead with
    | none => exact .none
    | some hcd =>
      cases ih with
      | none => exact .none
      | some hrest => exact .some (.cons hcd hrest)

/-- Twins are found with values that are alike, or not at all. -/
theorem lookup_alike {es es' : List (Nat × Ty)} (h : Forall₂ (A.Entries B) es es') {i j : Nat}
    (hij : A.Paired B i j) : Option.Rel (Alike (A.Twin B)) (es.lookup i) (es'.lookup j) := by
  induction h with
  | nil => exact .none
  | @cons e e' es es' he _ ih =>
    obtain ⟨k, t⟩ := e
    obtain ⟨k', u⟩ := e'
    have hiff : i = k ↔ j = k' := Relator.rel_eq (Arena.paired_biUnique A B) hij he.1
    rw [lookup_cons_ite, lookup_cons_ite]
    by_cases hi : i = k
    · rw [if_pos hi, if_pos (hiff.mp hi)]
      exact .some he.2
    · rw [if_neg hi, if_neg fun hj => hi (hiff.mpr hj)]
      exact ih

theorem commonBindings_alike {x y : Success} {xs ys : List Success} (hx : Success.Alike A B x y)
    (hxs : Forall₂ (Success.Alike A B) xs ys) :
    Forall₂ (A.Entries B) (commonBindings x xs) (commonBindings y ys) := by
  unfold commonBindings
  refine rel_filterMap ?_ hx.2
  rintro ⟨i, t⟩ ⟨j, u⟩ ⟨hij, htu⟩
  simp only [Option.bind_eq_bind]
  have hvalues : Option.Rel (Forall₂ (Alike (A.Twin B))) (xs.mapM fun s => s.bindings.lookup i)
      (ys.mapM fun s => s.bindings.lookup j) :=
    rel_mapM hxs fun x y hxy => lookup_alike hxy.2 hij
  generalize (xs.mapM fun s => s.bindings.lookup i) = vs at hvalues
  generalize (ys.mapM fun s => s.bindings.lookup j) = ws at hvalues
  cases hvalues with
  | none => exact .none
  | @some vs ws hvalues =>
    have hunion := Alike.union? (Arena.twin_pairing A B) (.cons htu hvalues)
    simp only [Option.bind_some]
    generalize union? (t :: vs) = c at hunion
    generalize union? (u :: ws) = d at hunion
    cases hunion with
    | none => exact .none
    | some hcd => exact .some ⟨hij, hcd⟩

theorem accrete_follows {es es' : List (Nat × Ty)} (h : Forall₂ (A.Entries B) es es') {count count' : Nat}
    (hs : Parallel A B s.arena s'.arena) :
    Parallel A B (accrete level count es s).arena (accrete level count' es' s').arena := by
  induction h generalizing s s' with
  | nil => exact hs
  | @cons e e' es es' he _ ih =>
    obtain ⟨i, t⟩ := e
    obtain ⟨j, u⟩ := e'
    unfold accrete
    refine ih ?_
    exact (Parallel.storeBind (s.note .trace _) (s'.note .trace _) hs he.1 he.2).2

section Alternatives

variable {attempt attempt' : Attempt} (hbinds : ∀ t s ok s', attempt t s = some (ok, s') → s.arena.Binds s'.arena)
  (hbinds' : ∀ t s ok s', attempt' t s = some (ok, s') → s.arena.Binds s'.arena)
  (h : ∀ t u (s s' : Store), Alike (A.Twin B) t u → Twins A B s.arena s'.arena →
    Answers (Twins A B) (attempt t s) (attempt' u s'))
include hbinds hbinds' h

theorem tryAlternatives_follows {ts us : List Ty} (hts : Forall₂ (Alike (A.Twin B)) ts us)
    (hs : Twins A B s.arena s'.arena) {search : Search} (hrun : tryAlternatives attempt ts s = some (search, x)) :
    ∃ search' x', tryAlternatives attempt' us s' = some (search', x') ∧ Search.Alike A B search search' ∧
      Twins A B x.arena x'.arena := by
  induction hts generalizing s s' x search with
  | nil =>
    cases hrun
    exact ⟨.found [], s', rfl, .found .nil, hs⟩
  | @cons t u ts us htu _ ih =>
    unfold tryAlternatives at hrun ⊢
    obtain ⟨⟨ok, tried⟩, htried, hrun⟩ := Option.bind_eq_some_iff.mp hrun
    obtain ⟨tried', htried', hs₁⟩ := h t u s s' htu hs ok tried htried
    have hgrows := (hbinds t s ok tried htried).grows
    have hgrows' := (hbinds' u s' ok tried' htried').grows
    have hsame := hs.unchangedSince hs₁.toParallel hgrows hgrows'
    simp only [htried', Option.bind_eq_bind, Option.bind_some] at hrun ⊢
    by_cases hsettled : (ok && tried.arena.unchangedSince s.arena.snapshot) = true
    · rw [if_pos hsettled] at hrun
      rw [← hsame, if_pos hsettled]
      cases hrun
      exact ⟨.settled, tried', rfl, .settled, hs₁⟩
    · rw [if_neg hsettled] at hrun
      rw [← hsame, if_neg hsettled]
      obtain ⟨⟨searched, s₂⟩, hmore, hrun⟩ := Option.bind_eq_some_iff.mp hrun
      have hback : Twins A B (tried.rollback s.arena.snapshot).arena (tried'.rollback s'.arena.snapshot).arena :=
        hs.rollback hs₁ hgrows hgrows'
      obtain ⟨searched', s₂', hmore', halike, hs₂⟩ := ih hback hmore
      simp only [hmore', Option.bind_some]
      cases halike with
      | settled =>
        cases hrun
        exact ⟨.settled, s₂', rfl, .settled, hs₂⟩
      | @found xs ys hfound =>
        cases ok with
        | false =>
          cases hrun
          exact ⟨.found ys, s₂', rfl, .found hfound, hs₂⟩
        | true =>
          cases hrun
          exact ⟨_, s₂', rfl, .found (.cons ⟨htu, hs.bindingsSince hs₁ hgrows hgrows'⟩ hfound), hs₂⟩

theorem compareAlternatives_follows {ts us : List Ty} (hts : Forall₂ (Alike (A.Twin B)) ts us)
    (hs : Twins A B s.arena s'.arena) :
    Answers (Parallel A B) (compareAlternatives attempt level ts s) (compareAlternatives attempt' level us s') := by
  intro ok x hrun
  unfold compareAlternatives at hrun ⊢
  obtain ⟨⟨search, s₁⟩, hsearch, hrun⟩ := Option.bind_eq_some_iff.mp hrun
  obtain ⟨search', s₁', hsearch', halike, hs₁⟩ := tryAlternatives_follows hbinds hbinds' h hts hs hsearch
  simp only [hsearch', Option.bind_eq_bind, Option.bind_some]
  cases halike with
  | settled =>
    cases hrun
    exact ⟨s₁', rfl, hs₁.toParallel⟩
  | found hfound =>
    cases hfound with
    | nil =>
      cases hrun
      exact ⟨s₁', rfl, hs₁.toParallel⟩
    | cons hfirst hrest =>
      cases hrest with
      | nil =>
        obtain ⟨x', hrun', hx⟩ := h _ _ s₁ s₁' hfirst.1 hs₁ ok x hrun
        exact ⟨x', hrun', hx.toParallel⟩
      | cons hsecond hrest =>
        cases hrun
        exact ⟨_, rfl, accrete_follows (commonBindings_alike hfirst (.cons hsecond hrest)) hs₁.toParallel⟩

end Alternatives

/-! ## One step -/

theorem Plan.run_follows (hf : f.Binding) (hg : g.Binding) (h : Comparison.Follows A B f g) {p q : Plan}
    (hpq : Plan.Alike (A.Twin B) p q) (hs : Twins A B s.arena s'.arena) :
    Answers (Parallel A B) (p.run f level s) (q.run g level s') := by
  intro ok x hrun
  cases hpq with
  | decide verdict =>
    cases hrun
    exact ⟨s', rfl, hs.toParallel⟩
  | @bind v w t u hvw htu =>
    have hbind : (bindTo v t s).1 = (bindTo w u s').1 ∧
        Parallel A B (bindTo v t s).2.arena (bindTo w u s').2.arena := by
      unfold bindTo
      rw [hs.mirrors.occursWithin hvw htu]
      split
      · exact ⟨rfl, hs.toParallel⟩
      · exact Parallel.storeBind s s' hs.toParallel hvw.paired htu
    have hout : bindTo v t s = (ok, x) := Option.some.inj hrun
    rw [hout] at hbind
    exact ⟨(bindTo w u s').2, congrArg some (Prod.ext hbind.1.symm rfl), hbind.2⟩
  | all verdict hpairs =>
    obtain ⟨x', hrun', hx⟩ := compareAll_follows h hpairs hs ok x hrun
    exact ⟨x', hrun', hx.toParallel⟩
  | any hpair hts =>
    refine compareAlternatives_follows ?_ ?_ ?_ hts hs ok x hrun
    · exact fun t s ok s' => hf _ _ _ s ok s'
    · exact fun t s ok s' => hg _ _ _ s ok s'
    · intro t u s s' htu hs
      obtain ⟨hleft, hright⟩ := hpair t u htu
      exact h _ _ _ _ _ s s' hleft hright hs

theorem Definitions.in_since (defs : Definitions) (n : Nat) : defs.In (.since n) :=
  fun hp => hp.elim

/-- **One step follows** if the steps below it do. -/
theorem compareStep_follows {defs' : Definitions} (hf : f.Confining (.since A.size))
    (hg : g.Confining (.since B.size)) (h : Comparison.Follows A B f g) :
    Comparison.Follows A B (compareStep defs f) (compareStep defs' g) := by
  intro l r l' r' level s s' hl hr hs ok x hrun
  have hl' := hs.mirrors.follow hl
  have hr' := hs.mirrors.follow hr
  have hequal := hs.mirrors.equivalent hl' hr'
  obtain ⟨x', hrun', hx⟩ : ∃ x', compareStep defs' g l' r' level s' = some (ok, x') ∧
      Parallel A B x.arena x'.arena := by
    rcases compareStep_cases hrun with ⟨heq, rfl, hsame⟩ | ⟨hneq, before, after, hbefore, hafter, hplan⟩
    · obtain ⟨x', hrun', hsame'⟩ := compareStep_equal (hequal ▸ heq)
      refine ⟨x', hrun', ?_⟩
      rw [hsame, hsame']
      exact hs.toParallel
    · obtain ⟨before', hbefore', hanswers⟩ := compareStep_run (hequal ▸ hneq)
      have hstart : Twins A B before.arena before'.arena := by
        rw [hbefore, hbefore']
        exact hs
      obtain ⟨after', hplan', hpar⟩ :=
        Plan.run_follows hf.binding hg.binding h (plan_alike hs hl' hr') hstart ok after hplan
      obtain ⟨x', hrun', hafter'⟩ := hanswers ok after' hplan'
      refine ⟨x', hrun', ?_⟩
      rw [hafter, hafter']
      exact hpar
  -- that no cycle arises is known of each side for itself
  have hleft := compareStep_confining (defs.in_since _) hf l r level s ok x hrun
  have hright := compareStep_confining (defs'.in_since _) hg l' r' level s' ok x' hrun'
  refine ⟨x', hrun', hx, ?_, ?_⟩
  · exact (hleft.2 hl.in_since hr.in_since hs.closed).acyclic (since_coherent _) hs.leftAcyclic
  · exact (hright.2 hl.twin_symm.in_since hr.twin_symm.in_since hs.symm.closed).acyclic (since_coherent _)
      hs.rightAcyclic

/-! ## Whole comparisons -/

theorem unfolded_confining {F : Fragment} (hd : defs.In F) (n : Nat) : (unfolded defs n).Confining F := by
  induction n with
  | zero =>
    intro l r level s ok s' hrun
    cases hrun
  | succ n ih => exact compareStep_confining hd ih

theorem unfolded_follows (defs defs' : Definitions) (n : Nat) :
    Comparison.Follows A B (unfolded defs n) (unfolded defs' n) := by
  induction n with
  | zero =>
    intro l r l' r' level s s' _ _ _ ok x hrun
    cases hrun
  | succ n ih =>
    exact compareStep_follows (unfolded_confining (defs.in_since _) n) (unfolded_confining (defs'.in_since _) n) ih

section Unification

variable (defs) (defs' : Definitions) {l r l' r' : Ty}

theorem unify_ends_since (hl : Alike (A.Twin B) l l') (hr : Alike (A.Twin B) r r')
    (hs : Twins A B s.arena s'.arena) : (s.unify defs l r).1 ≠ .endless :=
  unify_ends (since_coherent _) id hl.in_since hr.in_since hs.closed hs.leftAcyclic

/-- **Unification follows.** -/
theorem unify_follows (hl : Alike (A.Twin B) l l') (hr : Alike (A.Twin B) r r') (hs : Twins A B s.arena s'.arena) :
    (s.unify defs l r).1 = (s'.unify defs' l' r').1 ∧
      Twins A B (s.unify defs l r).2.arena (s'.unify defs' l' r').2.arena := by
  obtain ⟨ok, after, hev, hout⟩ := unify_unfolds (unify_ends_since defs hl hr hs)
  obtain ⟨ok', after', hev', hout'⟩ :=
    unify_unfolds (unify_ends_since defs' hl.twin_symm hr.twin_symm hs.symm)
  obtain ⟨n, hn, hn'⟩ := (hev.and hev').exists
  obtain ⟨x', hx', htwins⟩ := unfolded_follows defs defs' n l r l' r' 0 s s' hl hr hs ok after hn
  obtain ⟨rfl, rfl⟩ := Prod.mk.inj (Option.some.inj (hn'.symm.trans hx'))
  have hgrows := (unfolded_confining (defs.in_since A.size) n l r 0 s _ after hn).1.grows
  have hgrows' := (unfolded_confining (defs'.in_since B.size) n l' r' 0 s' _ after' hn').1.grows
  rw [hout, hout']
  cases ok' with
  | true => exact ⟨rfl, htwins⟩
  | false => exact ⟨rfl, hs.rollback htwins hgrows hgrows'⟩

end Unification

/-! ## Application -/

/-- The types of the variables handed out from a number on, as arenas grow. -/
def Regime.since (n : Nat) : Regime where
  fragment _ := .since n
  base := n
  choices _ := trivial
  grow _ := ⟨fun _ h => h, id, id, id, id⟩
  old _ h _ := h
  fresh a ha := ⟨a.size - n, by rw [Nat.add_sub_cancel' ha]; rfl⟩
  placeholders _ h := h
  steady _ := rfl

theorem Arena.Twins.holds {a b : Arena} (h : Twins A B a b) (defs : Definitions) : (Regime.since A.size).Holds defs a :=
  ⟨h.left.grows.size_le, h.closed, defs.in_since _⟩

section Application

variable (defs) (defs' : Definitions) {t u : Ty} {ts us : List Ty}

theorem freshMany_follows (n : Nat) (hs : Twins A B s.arena s'.arena) :
    Forall₂ (Alike (A.Twin B)) (freshMany n s).1 (freshMany n s').1 ∧
      Twins A B (freshMany n s).2.arena (freshMany n s').2.arena := by
  induction n generalizing s s' with
  | zero => exact ⟨.nil, hs⟩
  | succ n ih =>
    have hfresh : Twins A B s.fresh.2.arena s'.fresh.2.arena := hs.fresh
    obtain ⟨hrest, htwins⟩ := ih hfresh
    exact ⟨.cons (.var hs.twin_fresh) hrest, htwins⟩

theorem splitArgument_follows {f g : Ty} (hfg : Alike (A.Twin B) f g) (htu : Alike (A.Twin B) t u)
    (hs : Twins A B s.arena s'.arena) :
    Alike (A.Twin B) (splitArgument f t s).1 (splitArgument g u s').1 ∧
      Twins A B (splitArgument f t s).2.arena (splitArgument g u s').2.arena := by
  have hfollow := hs.mirrors.follow htu
  have hlength := (hs.mirrors.decompose hfg).length_eq
  unfold splitArgument
  generalize s.arena.follow t = x at hfollow
  generalize s'.arena.follow u = y at hfollow
  cases hfollow with
  | simple n => exact ⟨.simple n, hs⟩
  | func h h' => exact ⟨.func h h', hs⟩
  | union h => exact ⟨.union h, hs⟩
  | @var v w hvw =>
    simp only [hlength]
    split
    · exact ⟨.var hvw, hs⟩
    · obtain ⟨hparts, htwins⟩ := freshMany_follows (s'.arena.decompose g).length hs
      refine ⟨?_, htwins⟩
      have hunion := Alike.union? (Arena.twin_pairing A B) hparts
      generalize union? (freshMany (s'.arena.decompose g).length s).1 = c at hunion
      generalize union? (freshMany (s'.arena.decompose g).length s').1 = d at hunion
      cases hunion with
      | none => exact .var hvw
      | some h => exact h

/-- The same alternatives accept the argument. -/
theorem matchArgument_follows (htu : Alike (A.Twin B) t u) (hts : Forall₂ (Alike (A.Twin B)) ts us)
    (hs : Twins A B s.arena s'.arena) {m : Matching} (hrun : matchArgument defs t ts s = some (m, x)) :
    ∃ m' x', matchArgument defs' u us s' = some (m', x') ∧ Forall₂ (Alike (A.Twin B)) m.remaining m'.remaining ∧
      Forall₂ (Alike (A.Twin B)) m.results m'.results ∧ Twins A B x.arena x'.arena := by
  induction hts generalizing s s' m x with
  | nil =>
    cases hrun
    exact ⟨{}, s', rfl, .nil, .nil, hs⟩
  | @cons alternative alternative' ts us halt _ ih =>
    have hfresh : Twins A B s.fresh.2.arena s'.fresh.2.arena := hs.fresh
    have hresult : Alike (A.Twin B) s.fresh.1 s'.fresh.1 := .var hs.twin_fresh
    obtain ⟨hverdict, hunify⟩ := unify_follows defs defs' (.func htu hresult) halt hfresh
    unfold matchArgument at hrun ⊢
    simp only [] at hrun ⊢
    generalize hleft : s.fresh.2.unify defs (.func t s.fresh.1) alternative = left at hrun hverdict hunify
    generalize hright : s'.fresh.2.unify defs' (.func u s'.fresh.1) alternative' = right at hverdict hunify
    obtain ⟨verdict, s₁⟩ := left
    obtain ⟨verdict', s₁'⟩ := right
    obtain rfl : verdict = verdict' := hverdict
    cases verdict with
    | unified =>
      obtain ⟨⟨m₁, s₂⟩, hmore, hrun⟩ := Option.bind_eq_some_iff.mp hrun
      cases hrun
      obtain ⟨m₁', s₂', hmore', hremaining, hresults, hs₂⟩ := ih hunify hmore
      simp only [hmore', Option.bind_eq_bind, Option.bind_some]
      exact ⟨_, s₂', rfl, hremaining, .cons (hunify.mirrors.expose hresult) hresults, hs₂⟩
    | mismatch =>
      obtain ⟨⟨m₁, s₂⟩, hmore, hrun⟩ := Option.bind_eq_some_iff.mp hrun
      cases hrun
      obtain ⟨m₁', s₂', hmore', hremaining, hresults, hs₂⟩ := ih hunify hmore
      simp only [hmore', Option.bind_eq_bind, Option.bind_some]
      exact ⟨_, s₂', rfl, .cons halt hremaining, hresults, hs₂⟩
    | endless => cases hrun

theorem matchArguments_follows {fs gs : List Ty} (hts : Forall₂ (Alike (A.Twin B)) ts us)
    (hfs : Forall₂ (Alike (A.Twin B)) fs gs) (hs : Twins A B s.arena s'.arena) {m : Matched}
    (hrun : matchArguments defs ts fs s = some (m, x)) :
    ∃ m' x', matchArguments defs' us gs s' = some (m', x') ∧ Forall₂ (Alike (A.Twin B)) m.arguments m'.arguments ∧
      Forall₂ (Alike (A.Twin B)) m.results m'.results ∧ Twins A B x.arena x'.arena := by
  induction hts generalizing s s' m x fs gs with
  | nil =>
    cases hrun
    exact ⟨{}, s', rfl, .nil, .nil, hs⟩
  | @cons t u ts us htu _ ih =>
    unfold matchArguments at hrun ⊢
    obtain ⟨⟨m₁, s₁⟩, hfirst, hrun⟩ := Option.bind_eq_some_iff.mp hrun
    obtain ⟨⟨m₂, s₂⟩, hmore, hrun⟩ := Option.bind_eq_some_iff.mp hrun
    cases hrun
    obtain ⟨m₁', s₁', hfirst', hremaining, hresults, hs₁⟩ := matchArgument_follows defs defs' htu hfs hs hfirst
    obtain ⟨m₂', s₂', hmore', hargs, hresults', hs₂⟩ := ih hremaining hs₁ hmore
    simp only [hfirst', hmore', Option.bind_eq_bind, Option.bind_some]
    refine ⟨_, s₂', rfl, ?_, rel_append hresults hresults', hs₂⟩
    have hempty : m₁.results.isEmpty = m₁'.results.isEmpty := by
      rw [Bool.eq_iff_iff, isEmpty_iff_length_eq_zero, isEmpty_iff_length_eq_zero, hresults.length_eq]
    simp only [hempty]
    split
    · exact hargs
    · exact .cons (hs₁.mirrors.expose htu) hargs

theorem narrowArgument_follows (htu : Alike (A.Twin B) t u) (hts : Forall₂ (Alike (A.Twin B)) ts us)
    (hs : Twins A B s.arena s'.arena) :
    Twins A B (narrowArgument t ts s).arena (narrowArgument u us s').arena := by
  have hleft := narrowArgument_keeps (hs.holds {}) htu.in_since (forall_of_forall₂ hts fun _ _ h => h.in_since)
  have hright := narrowArgument_keeps (hs.symm.holds {}) htu.twin_symm.in_since
    (forall_of_forall₂ hts.flip fun _ _ h => Alike.in_since (Alike.twin_symm h))
  refine ⟨?_, hleft.acyclic (fun _ => since_coherent _) hs.leftAcyclic,
    hright.acyclic (fun _ => since_coherent _) hs.rightAcyclic⟩
  have hfollow := hs.mirrors.follow htu
  have hunion := Alike.union? (Arena.twin_pairing A B) hts
  unfold narrowArgument
  generalize s.arena.follow t = x at hfollow
  generalize s'.arena.follow u = y at hfollow
  generalize union? ts = c at hunion
  generalize union? us = d at hunion
  cases hfollow with
  | simple n => exact hs.toParallel
  | func h h' => exact hs.toParallel
  | union h => exact hs.toParallel
  | @var v w hvw =>
    cases hunion with
    | none => exact hs.toParallel
    | some hcd =>
      simp only [hs.mirrors.occursIn (.var hvw) hcd]
      split
      · exact hs.toParallel
      · exact (Parallel.storeBind (s.note .debug _) (s'.note .debug _) hs.toParallel hvw.paired hcd).2

/-- **How an application succeeds**, given what splitting and matching come to. -/
theorem apply_matched (f t : Ty) (s : Store) :
    ∃ noted : Store, noted.arena = s.arena ∧ ∀ matched after result,
      matchArguments defs ((splitArgument f t noted).2.arena.expose (splitArgument f t noted).1).alternatives
        ((splitArgument f t noted).2.arena.decompose f) (splitArgument f t noted).2 = some (matched, after) →
      matched.results ≠ [] →
      union? (matched.results.map (narrowArgument t matched.arguments after).arena.expose) = some result →
      (s.apply defs f t).1 = .ok result ∧
        (s.apply defs f t).2.arena = (narrowArgument t matched.arguments after).arena := by
  refine ⟨s.note .trace fun _ => "[app] solving: (" ++ s.shown f ++ ") (" ++ s.shown t ++ ")", rfl, ?_⟩
  intro matched after result hmatch hne hunion
  have hsome : ¬matched.results.isEmpty = true := by
    rw [List.isEmpty_iff]
    exact hne
  unfold apply
  simp only [hmatch, if_neg hsome, hunion]
  exact ⟨trivial, rfl⟩

/-- **Application follows**: where it succeeds on the left it does on the right, and the results are alike. -/
theorem apply_follows {f g : Ty} (hfg : Alike (A.Twin B) f g) (htu : Alike (A.Twin B) t u)
    (hs : Twins A B s.arena s'.arena) {result : Ty} (hrun : (s.apply defs f t).1 = .ok result) :
    ∃ result', (s'.apply defs' g u).1 = .ok result' ∧ Alike (A.Twin B) result result' ∧
      Twins A B (s.apply defs f t).2.arena (s'.apply defs' g u).2.arena := by
  obtain ⟨message, constrained, split, hsplit, hcases⟩ := apply_cases defs f t s
  obtain ⟨noted', hnoted', hanswers⟩ := apply_matched defs' g u s'
  have hstart : Twins A B (s.note .trace message).arena noted'.arena := by
    rw [hnoted']
    exact hs
  obtain ⟨hconstrained, hs₁⟩ := splitArgument_follows hfg htu hstart
  rw [hsplit] at hconstrained hs₁
  rcases hcases with ⟨e, herror⟩ | ⟨matched, after, hmatch, ⟨e, herror⟩ | ⟨hne, _, rfl, hend, hok⟩⟩
  · rw [herror] at hrun
    cases hrun
  · rw [herror] at hrun
    cases hrun
  obtain ⟨matched', after', hmatch', hargs, hresults, hs₂⟩ := matchArguments_follows defs defs'
    (hs₁.mirrors.expose hconstrained).alternatives (hs₁.mirrors.decompose hfg) hs₁ hmatch
  have hnarrow := narrowArgument_follows htu hargs hs₂
  have hshown := rel_map (fun _ _ hxy => hnarrow.mirrors.expose hxy) hresults
  have hunion := Alike.union? (Arena.twin_pairing A B) hshown
  rw [(hok result).mp hrun] at hunion
  have hne' : matched'.results ≠ [] := by
    intro hnil
    rw [hnil] at hresults
    exact hne (forall₂_nil_right_iff.mp hresults)
  generalize hjoined : union? (matched'.results.map
    (narrowArgument u matched'.arguments after').arena.expose) = joined at hunion
  cases hunion with
  | some halike =>
    obtain ⟨hrun', harena'⟩ := hanswers matched' after' _ hmatch' hne' hjoined
    refine ⟨_, hrun', halike, ?_⟩
    rw [harena']
    rcases hend with h | ⟨_, h⟩
    · rwa [h]
    · rwa [h]

end Application
end UnionTyping
