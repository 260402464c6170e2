import UnionTyping.Solve.Unify
import UnionTyping.Proofs.Acyclic

/-!
# `Proofs.Plan` — what one step of a comparison does

`compareCases` distinguishes some twenty pairs of constructors, but it does only four different things: it
decides at once, it binds a variable, it compares several pairs one after the other, or it tries
alternatives. A `Plan` says which of these, and with what; `plan` reads it off the two types, and
`compareCases_eq_run` shows that nothing else happens. Every property of comparisons is proved over the
four kinds of plans, and `compareWithin_meets` carries it from one step to whole comparisons.
-/

namespace UnionTyping

open List

/-! ## Plans -/

/-- What is to be done about two types that are not equivalent and whose variables at the top are
    unbound. -/
inductive Plan where
  /-- The answer is known. -/
  | decide (verdict : Bool)
  /-- Bind the variable to the type. -/
  | bind (v : TyVar) (t : Ty)
  /-- Compare all pairs in order up to the first mismatch; if there is none, the verdict is as given. -/
  | all (pairs : List (Ty × Ty)) (verdict : Bool)
  /-- Try the alternatives; each stands for a pair to be compared. -/
  | any (pair : Ty → Ty × Ty) (alternatives : List Ty)

/-- Compares pairs of types in order up to the first mismatch. -/
def compareAll (next : Comparison) (level : Nat) (verdict : Bool) :
    List (Ty × Ty) → Store → Option (Bool × Store)
  | [], s => some (verdict, s)
  | p :: ps, s => do
      let (ok, s) ← next p.1 p.2 level s
      if ok then compareAll next level verdict ps s else some (false, s)

namespace Plan

/-- Carries a plan out. -/
def run (next : Comparison) (level : Nat) (s : Store) : Plan → Option (Bool × Store)
  | .decide verdict => some (verdict, s)
  | .bind v t => some (bindTo v t s)
  | .all pairs verdict => compareAll next (level + 1) verdict pairs s
  | .any pair alternatives =>
      compareAlternatives (fun t => next (pair t).1 (pair t).2 (level + 1)) level alternatives s

/-- Compare two lists, which must be equally long, and then go on with more pairs. -/
def pairwise (ls rs : List Ty) (more : List (Ty × Ty)) (verdict : Bool) : Plan :=
  if ls.length = rs.length then .all (ls.zip rs ++ more) verdict else .decide false

end Plan

/-- What `compareCases` does about two types. -/
def plan (defs : Definitions) (a : Arena) : Ty → Ty → Plan
  | l, .var v => .bind v l
  | .var v, r => .bind v r
  | l, .union members => .any (fun t => (l, t)) members
  | .union members, r => .any (fun t => (t, r)) members
  | .recursive n as, .recursive m bs => if n = m then .pairwise as bs [] true else .decide false
  | l, .recursive m bs =>
      match defs.expand? (.recursive m bs) with
      | some expanded => .all [(l, expanded)] true
      | none => if l.name? = some m then .pairwise l.arguments bs [] true else .decide false
  | .recursive n as, r =>
      match defs.expand? (.recursive n as) with
      | some expanded => .all [(expanded, r)] true
      | none => if r.name? = some n then .pairwise as r.arguments [] true else .decide false
  | .simple n, .simple m => .decide (n = m)
  | .func a₁ r₁, .func a₂ r₂ =>
      .all [if (a.follow a₁).isFunc then (a₂, a₁) else (a₁, a₂), (r₁, r₂)] true
  | .record n as fs, .record m bs gs =>
      if n = m ∧ fs.map Prod.fst = gs.map Prod.fst then
        .pairwise as bs ((fs.map Prod.snd).zip (gs.map Prod.snd)) true
      else .decide false
  | .algebraic n as os, .algebraic m bs ps =>
      if n = m then
        if os.length = ps.length then .pairwise as bs (os.zip ps) true else .pairwise as bs [] false
      else .decide false
  | .algebraic n as os, .simple m =>
      .any (fun t => (t, .simple m)) (unrolledOptions (.algebraic n as os) os)
  | .algebraic n as os, .record m bs gs =>
      .any (fun t => (t, .record m bs gs)) (unrolledOptions (.algebraic n as os) os)
  | .simple n, .algebraic m bs ps =>
      .any (fun t => (.simple n, t)) (unrolledOptions (.algebraic m bs ps) ps)
  | .record n as fs, .algebraic m bs ps =>
      .any (fun t => (.record n as fs, t)) (unrolledOptions (.algebraic m bs ps) ps)
  | _, _ => .decide false

/-! ## What is compared next -/

namespace Plan

/-- The pairs that a plan compares. -/
def pairs : Plan → List (Ty × Ty)
  | .all pairs _ => pairs
  | .any pair alternatives => alternatives.map pair
  | _ => []

end Plan

/-- The members of a union, or the options of a sum with its placeholders unrolled. -/
def Ty.choices : Ty → List Ty
  | .union members => members
  | .algebraic n as os => unrolledOptions (.algebraic n as os) os
  | _ => []

/-- How the two types of a pair that is compared next come from the two types at hand. -/
inductive Part (defs : Definitions) (l r : Ty) : Ty × Ty → Prop where
  | children {x y : Ty} : x ∈ l.children → y ∈ r.children → Part defs l r (x, y)
  /-- The arguments of functions that take functions are compared the other way round. -/
  | crossed {x y : Ty} : x ∈ r.children → y ∈ l.children → Part defs l r (x, y)
  | unfoldLeft {x : Ty} : defs.expand? l = some x → Part defs l r (x, r)
  | unfoldRight {y : Ty} : defs.expand? r = some y → Part defs l r (l, y)
  | chooseLeft {x : Ty} : x ∈ l.choices → Part defs l r (x, r)
  | chooseRight {y : Ty} : y ∈ r.choices → Part defs l r (l, y)

section Parts

variable {defs : Definitions} {a : Arena} {l r : Ty}

/-- Comparing two lists neither binds a variable nor tries alternatives by itself. -/
theorem Plan.pairwise_ne {p : Plan} (hall : ∀ pairs verdict, Plan.all pairs verdict ≠ p)
    (hdecide : ∀ verdict, decide verdict ≠ p) {ls rs : List Ty} {more : List (Ty × Ty)}
    {verdict : Bool} : pairwise ls rs more verdict ≠ p := by
  unfold pairwise
  split
  · exact hall _ _
  · exact hdecide _

/-- A variable is bound where one of the two types is the variable, and to the other one. -/
theorem plan_eq_bind {v : TyVar} {t : Ty} (h : plan defs a l r = .bind v t) :
    (l = t ∧ r = .var v) ∨ (l = .var v ∧ r = t) := by
  revert h
  fun_cases plan defs a l r
  case case1 w =>
      intro h
      cases h
      exact Or.inl ⟨rfl, rfl⟩
  case case2 w _ =>
      intro h
      cases h
      exact Or.inr ⟨rfl, rfl⟩
  case case5 | case8 | case11 | case15 | case17 | case18 =>
      intro h
      refine absurd h (Plan.pairwise_ne ?_ ?_) <;> nofun
  all_goals exact fun h => Plan.noConfusion h

/-- Where alternatives are tried, they are those of one of the two types. -/
theorem plan_eq_any {pair : Ty → Ty × Ty} {alternatives : List Ty}
    (h : plan defs a l r = .any pair alternatives) : alternatives = l.choices ∨ alternatives = r.choices := by
  revert h
  fun_cases plan defs a l r
  case case3 | case22 | case23 =>
      intro h
      cases h
      exact Or.inr rfl
  case case4 | case20 | case21 =>
      intro h
      cases h
      exact Or.inl rfl
  case case5 | case8 | case11 | case15 | case17 | case18 =>
      intro h
      refine absurd h (Plan.pairwise_ne ?_ ?_) <;> nofun
  all_goals exact fun h => Plan.noConfusion h

theorem Part.of_pairwise {more : List (Ty × Ty)} {verdict : Bool}
    (hmore : ∀ p ∈ more, p.1 ∈ l.children ∧ p.2 ∈ r.children) {p : Ty × Ty}
    (hp : p ∈ (Plan.pairwise l.arguments r.arguments more verdict).pairs) : Part defs l r p := by
  unfold Plan.pairwise at hp
  split at hp
  · rcases mem_append.mp hp with hp | hp
    · have hzip := of_mem_zip (a := p.1) (b := p.2) hp
      exact .children (Ty.mem_arguments_children hzip.1) (Ty.mem_arguments_children hzip.2)
    · exact .children (hmore p hp).1 (hmore p hp).2
  · cases hp

/-- **What is compared next** are children of both types, or one of the types is unfolded or replaced by
    one of its alternatives. -/
theorem plan_pairs {p : Ty × Ty} (hp : p ∈ (plan defs a l r).pairs) : Part defs l r p := by
  revert hp
  fun_cases plan defs a l r
  -- alternatives on the right, and on the left
  case case3 | case22 | case23 =>
      intro hp
      obtain ⟨t, ht, rfl⟩ := mem_map.mp hp
      exact .chooseRight ht
  case case4 | case20 | case21 =>
      intro hp
      obtain ⟨t, ht, rfl⟩ := mem_map.mp hp
      exact .chooseLeft ht
  -- placeholders
  case case7 hexpand _ _ _ =>
      intro hp
      rw [mem_singleton.mp hp]
      exact .unfoldRight hexpand
  case case10 hexpand _ _ _ =>
      intro hp
      rw [mem_singleton.mp hp]
      exact .unfoldLeft hexpand
  case case5 | case8 | case11 => exact fun hp => Part.of_pairwise (by simp) hp
  -- the same constructor on both sides
  case case14 =>
      intro hp
      rcases mem_cons.mp hp with rfl | hp
      · split
        · exact .crossed (by simp [Ty.children]) (by simp [Ty.children])
        · exact .children (by simp [Ty.children]) (by simp [Ty.children])
      · rw [mem_singleton.mp hp]
        exact .children (by simp [Ty.children]) (by simp [Ty.children])
  case case15 | case17 =>
      refine fun hp => Part.of_pairwise (fun p hp => ?_) hp
      have hzip := of_mem_zip (a := p.1) (b := p.2) hp
      exact ⟨mem_append_right _ hzip.1, mem_append_right _ hzip.2⟩
  case case18 => exact fun hp => Part.of_pairwise (by simp) hp
  all_goals exact fun hp => absurd hp not_mem_nil

end Parts

/-! ## Nothing else happens -/

section Equations

variable {next : Comparison} {level : Nat}

theorem comparePairs_eq (ls rs : List Ty) (s : Store) :
    comparePairs next level ls rs s = compareAll next level true (ls.zip rs) s := by
  induction ls generalizing rs s with
  | nil => cases rs <;> rfl
  | cons l ls ih =>
    cases rs with
    | nil => rfl
    | cons r rs =>
      simp only [comparePairs, zip_cons_cons, compareAll]
      cases next l r level s with
      | none => rfl
      | some p => simp [ih]

/-- Two rounds of comparisons are one round over all pairs. -/
theorem compareAll_append (ps qs : List (Ty × Ty)) (verdict : Bool) (s : Store) :
    compareAll next level verdict (ps ++ qs) s =
      (compareAll next level true ps s).bind fun (ok, s) =>
        if ok then compareAll next level verdict qs s else some (false, s) := by
  induction ps generalizing s with
  | nil => rfl
  | cons p ps ih =>
    simp only [cons_append, compareAll]
    cases next p.1 p.2 level s with
    | none => rfl
    | some q =>
      obtain ⟨ok, s'⟩ := q
      cases ok with
      | false => rfl
      | true => simp [↓reduceIte, ih]

/-- Comparing one pair is the comparison itself. -/
theorem compareAll_single (l r : Ty) (s : Store) : compareAll next level true [(l, r)] s = next l r level s := by
  simp only [compareAll]
  cases next l r level s with
  | none => rfl
  | some q =>
    obtain ⟨ok, s'⟩ := q
    cases ok <;> rfl

theorem compareAll_pair (l r l' r' : Ty) (s : Store) :
    compareAll next level true [(l, r), (l', r')] s =
      (next l r level s).bind fun (ok, s) => if ok then next l' r' level s else some (false, s) := by
  have happ : compareAll next level true [(l, r), (l', r')] s = _ :=
    compareAll_append [(l, r)] [(l', r')] true s
  simp only [compareAll_single] at happ
  exact happ

/-- Comparing two lists and then, if they agree, going on. -/
theorem run_pairwise (ls rs : List Ty) (more : List (Ty × Ty)) (verdict : Bool) (s : Store) :
    (Plan.pairwise ls rs more verdict).run next level s =
      (compareLists next (level + 1) ls rs s).bind fun (ok, s) =>
        if ok then compareAll next (level + 1) verdict more s else some (false, s) := by
  unfold Plan.pairwise compareLists
  split
  · rw [Plan.run, compareAll_append, comparePairs_eq]
  · rfl

/-- Comparing two lists and nothing else. -/
theorem run_pairwise_nil (ls rs : List Ty) (s : Store) :
    (Plan.pairwise ls rs [] true).run next level s = compareLists next (level + 1) ls rs s := by
  rw [run_pairwise]
  cases compareLists next (level + 1) ls rs s with
  | none => rfl
  | some q =>
    obtain ⟨ok, s'⟩ := q
    cases ok <;> rfl

/-- A placeholder on either side: what it unfolds to is compared, or else its arguments. -/
theorem run_placeholder (unfolded : Option Ty) (pair : Ty → Ty × Ty) (c : Prop) [Decidable c]
    (ls rs : List Ty) (s : Store) :
    (match unfolded with
      | some t => next (pair t).1 (pair t).2 (level + 1) s
      | none => if c then compareLists next (level + 1) ls rs s else some (false, s)) =
    (match unfolded with
      | some t => Plan.all [pair t] true
      | none => if c then .pairwise ls rs [] true else .decide false).run next level s := by
  cases unfolded with
  | some t => exact (compareAll_single _ _ s).symm
  | none =>
    by_cases h : c
    · simp [if_pos h, run_pairwise_nil]
    · simp [if_neg h, Plan.run]

end Equations

/-- **A step carries out its plan.** -/
theorem compareCases_eq_run (defs : Definitions) (next : Comparison) (l r : Ty) (level : Nat)
    (s : Store) : compareCases defs next l r level s = (plan defs s.arena l r).run next level s := by
  -- Most pairs of constructors agree by definition. What is left are the placeholders, and the same
  -- constructor on both sides, where several rounds of comparisons become one.
  cases l with
  | var v => cases r <;> rfl
  | union ms => cases r <;> rfl
  | simple n =>
    cases r with
    | recursive m bs => exact run_placeholder _ (fun t => (.simple n, t)) _ _ _ s
    | _ => rfl
  | func a r' =>
    cases r with
    | func b t =>
      simp only [compareCases, plan, Plan.run]
      split
      · exact (compareAll_pair b a r' t s).symm
      · exact (compareAll_pair a b r' t s).symm
    | recursive m bs => exact run_placeholder _ (fun t => (.func a r', t)) _ _ _ s
    | _ => rfl
  | record n as fs =>
    cases r with
    | record m bs gs =>
      simp only [compareCases, plan]
      split
      · rename_i h
        have hlen : (fs.map Prod.snd).length = (gs.map Prod.snd).length := by
          have := congrArg List.length h.2
          simpa using this
        rw [run_pairwise]
        simp only [compareLists, if_pos hlen, comparePairs_eq]
        rfl
      · rfl
    | recursive m bs => exact run_placeholder _ (fun t => (.record n as fs, t)) _ _ _ s
    | _ => rfl
  | algebraic n as os =>
    cases r with
    | algebraic m bs ps =>
      simp only [compareCases, plan]
      split
      · by_cases hlen : os.length = ps.length
        · rw [if_pos hlen, run_pairwise]
          simp only [compareLists, if_pos hlen, comparePairs_eq]
          rfl
        · rw [if_neg hlen, run_pairwise]
          simp only [compareLists, if_neg hlen]
          rfl
      · rfl
    | recursive m bs => exact run_placeholder _ (fun t => (.algebraic n as os, t)) _ _ _ s
    | _ => rfl
  | recursive n as =>
    cases r with
    | recursive m bs =>
      simp only [compareCases, plan]
      split
      · exact (run_pairwise_nil as bs s).symm
      · rfl
    | simple m => exact run_placeholder _ (fun t => (t, .simple m)) _ _ _ s
    | func b t => exact run_placeholder _ (fun u => (u, .func b t)) _ _ _ s
    | record m bs gs => exact run_placeholder _ (fun t => (t, .record m bs gs)) _ _ _ s
    | algebraic m bs ps => exact run_placeholder _ (fun t => (t, .algebraic m bs ps)) _ _ _ s
    | _ => rfl

/-! ## From one step to whole comparisons -/

/-- The comparison has the property wherever it comes to an end. -/
def Comparison.Meets (Spec : Ty → Ty → Store → Bool → Store → Prop) (compare : Comparison) : Prop :=
  ∀ l r level s ok s', compare l r level s = some (ok, s') → Spec l r s ok s'

section Induction

variable {defs : Definitions} {Spec : Ty → Ty → Store → Bool → Store → Prop}

/-- The inner count is the depth; what takes over below is any comparison with the property. -/
theorem compareAt_meets (step : ∀ next : Comparison, next.Meets Spec → (compareStep defs next).Meets Spec)
    {lower : Comparison} (hlower : lower.Meets Spec) (unbound depth : Nat) :
    (compareAt defs lower unbound depth).Meets Spec := by
  induction depth with
  | zero =>
    intro l r level s ok s' h
    cases h
  | succ depth ih =>
    refine step _ fun l r level s ok s' h => ?_
    split at h
    · exact hlower l r level s ok s' h
    · exact ih l r level s ok s' h

/-- **Induction over comparisons.** A property that one step passes on, whatever the steps below it do as
    long as they have it, is one of all comparisons. -/
theorem compareWithin_meets
    (step : ∀ next : Comparison, next.Meets Spec → (compareStep defs next).Meets Spec) (unbound : Nat) :
    (compareWithin defs unbound).Meets Spec := by
  induction unbound with
  | zero =>
    intro l r level s ok s' h
    exact compareAt_meets step (fun _ _ _ _ _ _ h => by cases h) 0 _ l r level s ok s' h
  | succ n ih =>
    intro l r level s ok s' h
    exact compareAt_meets step ih (n + 1) _ l r level s ok s' h

end Induction

/-- **What one step does.** Equivalent types are left as they are; otherwise the plan for their topmost
    forms is carried out, on the same arena. The journal alone may differ. -/
theorem compareStep_cases {defs : Definitions} {next : Comparison} {l r : Ty} {level : Nat}
    {s s' : Store} {ok : Bool} (h : compareStep defs next l r level s = some (ok, s')) :
    (s.arena.equivalent (s.arena.follow l) (s.arena.follow r) = true ∧ ok = true ∧ s'.arena = s.arena) ∨
    (s.arena.equivalent (s.arena.follow l) (s.arena.follow r) = false ∧ ∃ before after : Store,
      before.arena = s.arena ∧ s'.arena = after.arena ∧
      (plan defs s.arena (s.arena.follow l) (s.arena.follow r)).run next level before = some (ok, after)) := by
  unfold compareStep at h
  simp only [] at h
  split at h
  · rename_i heq
    cases h
    exact Or.inl ⟨heq, rfl, rfl⟩
  · rename_i hne
    obtain ⟨⟨ok', after⟩, hrun, h⟩ := Option.bind_eq_some_iff.mp h
    cases h
    rw [compareCases_eq_run] at hrun
    refine Or.inr ⟨Bool.eq_false_iff.mpr hne, _, after, ?_, ?_, hrun⟩
    · rfl
    · rfl

section Steps

variable {defs : Definitions} {next : Comparison} {l r : Ty} {level : Nat} {s : Store}

theorem compareStep_equal (h : s.arena.equivalent (s.arena.follow l) (s.arena.follow r) = true) :
    ∃ s', compareStep defs next l r level s = some (true, s') ∧ s'.arena = s.arena := by
  unfold compareStep
  extract_lets left right noted
  exact ⟨noted, if_pos h, rfl⟩

theorem compareStep_run (h : s.arena.equivalent (s.arena.follow l) (s.arena.follow r) = false) :
    ∃ before : Store, before.arena = s.arena ∧ ∀ ok after,
      (plan defs s.arena (s.arena.follow l) (s.arena.follow r)).run next level before = some (ok, after) →
      ∃ s', compareStep defs next l r level s = some (ok, s') ∧ s'.arena = after.arena := by
  unfold compareStep
  extract_lets left right noted
  refine ⟨noted, rfl, fun ok after hrun => ?_⟩
  have hcases : compareCases defs next left right level noted = some (ok, after) := by
    rw [compareCases_eq_run]
    exact hrun
  have hdiffer : ¬noted.arena.equivalent left right = true := Bool.eq_false_iff.mp h
  rw [if_neg hdiffer, hcases]
  exact ⟨_, rfl, rfl⟩

end Steps

end UnionTyping
