import UnionTyping.Proofs.Failing
import UnionTyping.Proofs.Ordinary
import UnionTyping.Proofs.Unfolding

/-!
# `Proofs.Ending` — type checking comes to an end

The solver is the one place where checking a source could go on for ever, and there the depth of comparisons is
counted. A comparison that runs out of depth is given up, and whoever asked for it fails with a message that says
so (`Diagnostic.GivenUp`). Without placeholders no comparison is given up: unification answers what the recursion
answers, application goes through all alternatives, and since placeholders never arise no module and no expression
that was read from a text is given up (`checking_comes_to_an_end`).

That a step is not given up depends on the context it starts in, and so on what the steps before it have left. So it
is shown under a discipline that those steps obey (`definite_failing`).
-/

namespace UnionTyping

open List InferenceError Context Regime

/-! ## The solver -/

/-- The owned variables, and all constructors but placeholders. -/
def Regime.unrolled : Regime where
  fragment a := ⟨fun v => a.name? v.id = some v.name, True, True, False, True⟩
  base := 0
  choices _ := trivial
  grow h := ⟨fun v hv => (h.name? _ (Arena.lt_size_of_name? hv)).trans hv, id, id, id, id⟩
  old h hv hlt := (h.name? _ hlt).symm.trans hv
  fresh a _ := a.name?_fresh_self
  placeholders _ h := h
  steady h := by simp [h]

namespace Regime

theorem unrolled_coherent (a : Arena) : (unrolled.fragment a).Coherent :=
  fun v w hv hw hid => owned_coherent 0 a v w ⟨hv, Nat.zero_le _⟩ ⟨hw, Nat.zero_le _⟩ hid

theorem in_unrolled {a : Arena} {t : Ty} : t.In (unrolled.fragment a) ↔ a.Owns t ∧ t.Explicit := by
  constructor
  · intro h
    refine ⟨fun v hv => h.vars hv, fun u hu => ?_⟩
    cases u with
    | recursive n as => exact (h _ hu).elim
    | _ => rfl
  · rintro ⟨howned, hexplicit⟩ u hu
    cases u with
    | var v => exact howned v (Ty.var_mem_subterms.mp hu)
    | recursive n as => exact Bool.noConfusion (hexplicit _ hu)
    | union ms => exact ⟨trivial, fun _ => trivial⟩
    | _ => trivial

/-- The bindings are owned and explicit; of the definitions nothing is asked. -/
theorem unrolled_holds {a : Arena} {defs : Definitions}
    (howned : ∀ id u, a.binding? id = some u → a.Owns u ∧ u.Explicit) : unrolled.Holds defs a :=
  ⟨Nat.zero_le _, fun v u _ hu => in_unrolled.mpr (howned v.id u hu), fun h => h.elim⟩

end Regime

section Solver

variable {s : Store} {R : Regime} (hcoherent : ∀ a, (R.fragment a).Coherent)
  (hfree : ∀ a, ¬(R.fragment a).placeholders) {defs : Definitions}
include hcoherent hfree

theorem matchArgument_ends {argument : Ty} {alternatives : List Ty} (hs : R.Holds defs s.arena)
    (hac : s.arena.Acyclic) (harg : argument.In (R.fragment s.arena))
    (halts : ∀ t ∈ alternatives, t.In (R.fragment s.arena)) :
    (Store.matchArgument defs argument alternatives s).isSome := by
  induction alternatives generalizing s with
  | nil => rfl
  | cons alternative rest ih =>
    obtain ⟨halt, hrest⟩ := forall_mem_cons.mp halts
    obtain ⟨hfresh, hin⟩ := fresh_keeps hs
    have hs₁ := hfresh.holds hs
    have hac₁ := hfresh.acyclic hcoherent hac
    have hcall := Ty.in_func.mpr ⟨hfresh.in harg, hin⟩
    have hends : (s.fresh.2.unify defs (.func argument s.fresh.1) alternative).1 ≠ .endless :=
      unify_ends (hcoherent _) (hfree _) hcall (hfresh.in halt) hs₁.closed hac₁
    have hunify := unify_keeps hs₁ hcall (hfresh.in halt)
    -- whether or not it matched, the others are tried in the arena it leaves
    have hkeeps := hfresh.trans hunify
    have hmore := ih (hkeeps.holds hs) (hunify.acyclic hcoherent hac₁) (hkeeps.in harg)
      fun t ht => hkeeps.in (hrest t ht)
    unfold Store.matchArgument
    simp only []
    cases hrun : s.fresh.2.unify defs (.func argument s.fresh.1) alternative with
    | mk verdict after =>
      rw [hrun] at hmore hends
      obtain ⟨⟨m, s₂⟩, hm⟩ := Option.isSome_iff_exists.mp hmore
      cases verdict with
      | endless => exact absurd rfl hends
      | unified =>
        simp only [hm]
        rfl
      | mismatch =>
        simp only [hm]
        rfl

theorem matchArguments_ends {arguments functions : List Ty} (hs : R.Holds defs s.arena) (hac : s.arena.Acyclic)
    (hargs : ∀ t ∈ arguments, t.In (R.fragment s.arena)) (hfuns : ∀ t ∈ functions, t.In (R.fragment s.arena)) :
    (Store.matchArguments defs arguments functions s).isSome := by
  induction arguments generalizing functions s with
  | nil => rfl
  | cons argument rest ih =>
    obtain ⟨harg, hrest⟩ := forall_mem_cons.mp hargs
    obtain ⟨⟨m, s₁⟩, hm⟩ :=
      Option.isSome_iff_exists.mp (matchArgument_ends hcoherent hfree hs hac harg hfuns)
    obtain ⟨-, hstep, hsub, -⟩ := (R.applying defs).matchArgument hs harg hfuns hm
    have hkeeps := hstep.2 hs
    obtain ⟨⟨more, s₂⟩, hmore⟩ := Option.isSome_iff_exists.mp
      (ih (hkeeps.holds hs) (hkeeps.acyclic hcoherent hac) (fun t ht => hkeeps.in (hrest t ht))
        fun t ht => hkeeps.in (hfuns t (hsub ht)))
    unfold Store.matchArguments
    simp only [hm, hmore, Option.bind_eq_bind, Option.bind_some]
    rfl

/-- **Applications without placeholders come to an end**: those that fail do so for want of a match. -/
theorem apply_ends {function argument : Ty} (hs : R.Holds defs s.arena) (hac : s.arena.Acyclic)
    (hfun : function.In (R.fragment s.arena)) (harg : argument.In (R.fragment s.arena)) (l r : Ty) :
    (s.apply defs function argument).1 ≠ .error (.endless l r) := by
  unfold Store.apply
  extract_lets start noted
  obtain ⟨-, hstep, hconstrained⟩ := (R.applying defs).splitArgument function (s := noted) hs harg
  have hkeeps := hstep.2 hs
  cases hsplit : Store.splitArgument function argument noted with
  | mk constrained split =>
    rw [hsplit] at hkeeps hconstrained
    have hs₁ := hkeeps.holds hs
    obtain ⟨⟨matched, after⟩, hmatch⟩ := Option.isSome_iff_exists.mp
      (matchArguments_ends hcoherent hfree hs₁ (hkeeps.acyclic hcoherent hac)
        (fun t ht => (hs₁.closed.expose hconstrained).alternative ht)
        fun t ht => decompose_in hs₁.closed (hkeeps.in hfun) ht)
    simp only [hmatch]
    split
    · exact fun h => by cases h
    · split
      · exact fun h => by cases h
      · exact fun h => by cases h

end Solver

/-! ## Messages -/

/-- The diagnostic says that a comparison was given up. -/
def Diagnostic.GivenUp (d : Diagnostic) : Prop :=
  ∃ l r, d.message = (endless l r).message

/-- The first letters of a text that goes on. -/
theorem take_toList_append (s t : String) (hs : 3 ≤ s.toList.length) : (s ++ t).toList.take 3 = s.toList.take 3 := by
  rw [String.toList_append, take_append_of_le_length hs]

theorem Diagnostic.GivenUp.take {d : Diagnostic} (h : d.GivenUp) : d.message.toList.take 3 = ['c', 'o', 'm'] := by
  obtain ⟨l, r, h⟩ := h
  rw [h]
  unfold InferenceError.message
  simp only [String.append_assoc]
  rw [take_toList_append "comparing `" _ (by decide +kernel)]
  decide +kernel

/-- A text that begins otherwise. -/
theorem not_givenUp {d : Diagnostic} (s : String) {t : String} (hs : 3 ≤ s.toList.length)
    (hother : s.toList.take 3 ≠ ['c', 'o', 'm']) (h : d.message = s ++ t) : ¬d.GivenUp := by
  intro hgiven
  have htake := hgiven.take
  rw [h, take_toList_append s t hs] at htake
  exact hother htake

/-- Only that failure is worded so. -/
theorem InferenceError.diagnostic_not_givenUp {e : InferenceError} (h : ∀ l r, e ≠ .endless l r) :
    ¬e.diagnostic.GivenUp := by
  have hassoc : ∀ s t u v w : String, s ++ t ++ u ++ v ++ w = s ++ (t ++ u ++ v ++ w) := by
    intro s t u v w
    simp only [String.append_assoc]
  cases e with
  | endless l r => exact absurd rfl (h l r)
  | mismatch expected found =>
    exact not_givenUp "type mismatch: expected `" (by decide +kernel) (by decide +kernel) (hassoc _ _ _ _ _)
  | application function argument =>
    exact not_givenUp "cannot apply `" (by decide +kernel) (by decide +kernel) (hassoc _ _ _ _ _)
  | undefined symbol =>
    exact not_givenUp "undefined symbol `" (by decide +kernel) (by decide +kernel) (String.append_assoc ..)
  | unresolved home reason =>
    refine not_givenUp "cannot resolve module `" (t := home ++ ("`: " ++ reason)) (by decide +kernel)
      (by decide +kernel) ?_
    simp only [← String.append_assoc]
    rfl
  | emptyDeclaration symbol =>
    exact not_givenUp "declaration `" (by decide +kernel) (by decide +kernel) (String.append_assoc ..)
  | ambiguous type =>
    exact not_givenUp "type `" (by decide +kernel) (by decide +kernel) (String.append_assoc ..)

/-! ## Typing -/

namespace Typing

open Check

/-- Typing in good order, with ordinary types. -/
def definite : Discipline Context Ty :=
  orderly.and (keeping Ty.Ordinary)

theorem definite_solving : Solving definite :=
  orderly_solving.and ordinary_kind.toSolving

/-! ### Steps of the solver -/

variable {c : Context}

theorem definite_out {t : Ty} (ht : definite.Out c t) : t.In (unrolled.fragment c.store.arena) :=
  in_unrolled.mpr ⟨(in_owned.mp ht.1.1).1, ht.2.explicit⟩

theorem definite_holds (hc : definite.Inv c) : unrolled.Holds c.definitions c.store.arena := by
  refine unrolled_holds fun id u hu => ⟨?_, ?_⟩
  · exact closed_owned_zero.mp hc.1.owned.whole.closed id u hu
  · exact (hc.2.bindings id u hu).explicit

theorem unify_definite (hc : definite.Inv c) {l r : Ty} (hl : definite.Out c l) (hr : definite.Out c r) :
    (c.unify l r).1 ≠ .endless :=
  unify_ends (unrolled_coherent _) not_false (definite_out hl) (definite_out hr) (definite_holds hc).closed hc.1.acyclic

theorem openParameter_definite (hc : definite.Inv c) (x : Ident) :
    definite.Inv (openParameter x c).2 ∧ definite.Out (openParameter x c).2 (openParameter x c).1 := by
  obtain ⟨horderly, hout⟩ := hc.1.openParameter x
  obtain ⟨hordinary, hin⟩ := ordinary_kind.houses.openParameter hc.2 x
  exact ⟨⟨horderly, hordinary⟩, hout, hin⟩

/-- **Nothing is given up**: what fails, fails for another reason. -/
theorem definite_failing :
    Failing definite (fun _ => True) (fun cause => ∀ l r, cause ≠ .endless l r) (¬ ·.GivenUp) where
  toSolving := definite_solving
  obeys h := (orderly_obeys (h _ (owning_disciplined 0)) (h _ firm_disciplined)).and (h _ ordinary_disciplined)
  parameter x hc := openParameter_definite hc x
  bound {c d home x value p} hc h := by
    obtain ⟨t, value'⟩ := p
    have hordinary := (ordinary_kind.houses.boundValue hc.2 x (ordinary_disciplined.infer_obeys home value)).1
    rw [h] at hordinary
    exact ⟨hc.1.bound h, hordinary⟩
  other h := h
  application hc hf ha h l r := by
    rintro rfl
    exact apply_ends unrolled_coherent (fun _ => not_false) (definite_holds hc) hc.1.acyclic (definite_out hf)
      (definite_out ha) l r h
  unification hc hl hr h := absurd h (unify_definite hc hl hr)
  located hcause _ := diagnostic_not_givenUp hcause
  again h := h
  message htext _ := by
    simp only [mem_cons, not_mem_nil, or_false] at htext
    rcases htext with rfl | rfl
    · exact not_givenUp "conditional has no admissible type" (t := "") (by decide +kernel) (by decide +kernel)
        (String.append_empty).symm
    · exact not_givenUp "let binding has no value" (t := "") (by decide +kernel) (by decide +kernel)
        (String.append_empty).symm

/-! ## Checking -/

variable {e : Diagnostic} {d : Context} {home : String}

theorem KeepingCalm.definite (hc : KeepingCalm Ty.Ordinary c) : definite.Inv c :=
  ⟨hc.toCalm.orderly, hc.keeping⟩

theorem handOff_ends {a : Arena} {t : Ty} {body : TypedExpr} (h : body.handOff a t = .error e) : ¬e.GivenUp := by
  unfold TypedExpr.handOff at h
  simp only [] at h
  split at h
  · cases h
  · cases h
    exact diagnostic_not_givenUp (e := .ambiguous _) nofun

variable (hc : KeepingCalm Ty.Ordinary c)
include hc

/-- **A group of a module is not given up.** -/
theorem checkGroup_ends {decls : List Decl} (h : checkGroup home decls c = (.error e, d)) :
    ¬e.GivenUp := by
  have hforgotten := (hc.forgetAll ordinary_kind (decls.map (declared home))).definite
  unfold checkGroup at h
  simp only [] at h
  split at h
  · rename_i e' typed after hrun
    obtain ⟨horderly, hout⟩ := hforgotten.1.openGroup (groupBodies home decls)
    obtain ⟨hordinary, hin⟩ := ordinary_kind.houses.openGroup (groupBodies home decls) hforgotten.2
    have hcause : ¬e'.GivenUp := by
      have hbodies : ∀ g ∈ groupBodies home decls, ∃ step : Check TypedExpr, g.2 = asBody step ∧
          step.Obeys definite [] typeOnly ∧ step.Fails definite [] (¬ ·.GivenUp) := by
        intro g hg
        obtain ⟨decl, -, rfl⟩ := mem_map.mp hg
        exact ⟨infer home decl.body, rfl, definite_failing.obeys fun _ hD => hD.infer_obeys home decl.body,
          definite_failing.infer home fun _ _ => trivial⟩
      rcases definite_failing.group hbodies ⟨horderly, hordinary⟩ (fun m hm => ⟨hout m hm, hin m hm⟩) hrun with
        he | ⟨cause, hcause, rfl⟩
      · exact he
      · exact diagnostic_not_givenUp hcause
    cases h
    exact hcause
  · split at h
    · cases h
    · rename_i hhand
      cases h
      obtain ⟨_, _, _, _, _, -, -, hfails⟩ := handOffAll_error hhand
      exact handOff_ends hfails

theorem checkGroups_ends {decls : List Decl} {groups : List (List Nat)}
    (h : checkGroups home decls groups c = (.error e, d)) : ¬e.GivenUp := by
  obtain ⟨earlier, group, later, typed, between, rfl, hearlier, hfailing⟩ := checkGroups_error h
  have hbetween := checkGroups_keeps home decls earlier (fun x _ hc => hc.checkGroup ordinary_kind home x) hc
  rw [hearlier] at hbetween
  exact checkGroup_ends hbetween hfailing

/-- **A module is not given up.** -/
theorem checkProgram_ends {p : Program} (h : checkProgram p c = (.error e, d)) : ¬e.GivenUp := by
  cases hduplicate : duplicate? [] p.decls with
  | some x =>
    simp only [checkProgram, run_bind, run_modify] at h
    simp only [hduplicate] at h
    cases h
    exact not_givenUp "duplicate declaration `" (by decide +kernel) (by decide +kernel) (String.append_assoc ..)
  | none =>
    obtain ⟨hnames, -⟩ := duplicate?_eq_none_iff.mp hduplicate
    exact checkGroups_ends (hc.load (.program p)) (checkProgram_error hnames h)

/-- **An expression on its own is not given up.** -/
theorem checkExpr_ends {x : Expr} (h : checkExpr x c = (.error e, d)) : ¬e.GivenUp := by
  rcases checkExpr_cause h with hrun | ⟨body, after, -, hhand⟩
  · exact definite_failing.infer c.home (fun _ _ => trivial) c hc.definite (by simp) _ _ hrun
  · exact handOff_ends hhand

end Typing

open Typing

/-- **Type checking comes to an end.** Where bindings are owned, acyclic and without placeholders, the unification
    of two such types answers as the recursion does, at every depth from some depth on, and applying one to the
    other is not given up, whatever types are defined. In every context that a session reaches, no module and no
    expression is given up. -/
theorem checking_comes_to_an_end :
    (∀ (defs : Definitions) (s : Store) (l r : Ty), s.arena.WellFormed →
      (∀ id u, s.arena.binding? id = some u → u.Explicit) → s.arena.Owns l → s.arena.Owns r →
      l.Explicit → r.Explicit →
      (∃ ok after depth, (∀ n ≥ depth, unfolded defs n l r 0 s = some (ok, after)) ∧
        s.unify defs l r = if ok then (.unified, after) else (.mismatch, after.rollback s.arena.snapshot)) ∧
      ∀ f a, (s.apply defs l r).1 ≠ .error (.endless f a)) ∧
    ∀ c, Reached c → (∀ p e, (checkProgram p c).1 = .error e → ¬e.GivenUp) ∧
      ∀ x e, (checkExpr x c).1 = .error e → ¬e.GivenUp := by
  constructor
  · intro defs s l r hs hexplicit hl hr hlexplicit hrexplicit
    have hholds : Regime.unrolled.Holds defs s.arena :=
      Regime.unrolled_holds fun id u hu => ⟨hs.owned id u hu, hexplicit id u hu⟩
    have hl := Regime.in_unrolled.mpr ⟨hl, hlexplicit⟩
    have hr := Regime.in_unrolled.mpr ⟨hr, hrexplicit⟩
    have hends : (s.unify defs l r).1 ≠ .endless :=
      unify_ends (Regime.unrolled_coherent _) not_false hl hr hholds.closed hs.acyclic
    obtain ⟨ok, after, heventually, hunify⟩ := unify_unfolds hends
    obtain ⟨depth, hdepth⟩ := Filter.eventually_atTop.mp heventually
    exact ⟨⟨ok, after, depth, hdepth, hunify⟩,
      apply_ends Regime.unrolled_coherent (fun _ => not_false) hholds hs.acyclic hl hr⟩
  · intro c hc
    refine ⟨fun p e he => ?_, fun x e he => ?_⟩
    · exact checkProgram_ends (d := (checkProgram p c).2) hc.ordinary (Prod.ext he rfl)
    · exact checkExpr_ends (d := (checkExpr x c).2) hc.ordinary (Prod.ext he rfl)

/-- Two alternatives match, and what they have in common is bound; and the module `f = x -> x x`, which has no
    type, fails for want of one. -/
theorem checking_comes_to_an_end_overloaded :
    let s := (Context.new "main" false).fresh.2.fresh.2.store
    let l := Ty.func (.var ⟨2, "t2"⟩) (.var ⟨3, "t3"⟩)
    let r := Ty.union [.func .integer .integer, .func .string .integer]
    let p : Program := ⟨"main", [⟨⟨"f", ⟨0, 0, 1⟩⟩, .lambda ⟨0, 4, 12⟩ ⟨"x", ⟨0, 4, 5⟩⟩
      (.apply ⟨0, 9, 12⟩ (.name ⟨0, 9, 10⟩ ⟨none, "x"⟩) (.name ⟨0, 11, 12⟩ ⟨none, "x"⟩)), ⟨0, 0, 12⟩⟩]⟩
    (∃ after depth, ∀ n ≥ depth, unfolded {} n l r 0 s = some (true, after)) ∧
      (∀ f a, (s.apply {} l r).1 ≠ .error (.endless f a)) ∧
      ∃ e, (checkProgram p (.new "main" false)).1 = .error e ∧ ¬e.GivenUp := by
  intro s l r p
  have hs : s.arena.WellFormed :=
    (Context.Reachable.fresh (.fresh (.new "main" false))).wellFormed.arena
  have hfree : ∀ id u, s.arena.binding? id = some u → u.Explicit := by
    intro id u hu
    have hnone : s.arena.binding? id = none :=
      ((Arena.binding?_fresh _ id).trans (Arena.binding?_fresh _ id)).trans (Context.binding?_new "main" false id)
    rw [hnone] at hu
    cases hu
  obtain ⟨⟨ok, after, depth, hdepth, hunify⟩, happly⟩ := checking_comes_to_an_end.1 {} s l r hs hfree
    (by decide +kernel) (by decide +kernel) (by decide +kernel) (by decide +kernel)
  refine ⟨⟨after, depth, ?_⟩, happly, ?_⟩
  · have hunified : (s.unify {} l r).1 = .unified := by decide +kernel
    cases ok with
    | true => exact hdepth
    | false =>
        rw [hunify] at hunified
        cases hunified
  · have hfails : (checkProgram p (.new "main" false)).1.isOk = false := by decide +kernel
    cases he : (checkProgram p (.new "main" false)).1 with
    | ok done =>
        rw [he] at hfails
        cases hfails
    | error e => exact ⟨e, rfl, (checking_comes_to_an_end.2 _ (.new "main" false)).1 p e he⟩

end UnionTyping
