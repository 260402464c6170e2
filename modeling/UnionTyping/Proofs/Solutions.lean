import Mathlib.Logic.Function.Basic
import UnionTyping.Proofs.Renaming

/-!
# `Proofs.Solutions` — the steps of inference, by the solutions they leave

A *solution* of an arena gives every variable a monotype, and bound variables the same one as their
bindings. On first-order types each step of inference is described by what it does to solutions, without a
word about which variables it binds:

* a new variable leaves all solutions, whatever it is given by them (`Solution.fresh`);
* unification leaves those that make the two types equal (`unify_solutions`);
* application leaves those under which the function takes the argument to the result, and there is one for
  every result that is possible (`apply_solutions`). The argument is neither split nor narrowed.
-/

namespace UnionTyping

open Ty Store

namespace Arena

/-! ## Solutions -/

variable {a b : Arena} {σ τ : TyVar → Ty} {t : Ty}

/-- Only first-order types occur in the bindings, and no variable leads back to itself. -/
abbrev Regular (a : Arena) : Prop := a.Ready a.firstOrder

/-- **A solution**: monotypes for all variables that agree with the bindings. -/
structure Solution (a : Arena) (σ : TyVar → Ty) : Prop where
  plain : Plain σ
  solves : a.Solves a.firstOrder σ

theorem firstOrder_le (h : a.Extends b) : a.firstOrder.Le b.firstOrder :=
  ⟨fun _ hv => (h.name? _ (lt_size_of_name? hv)).trans hv, id, id, id, id⟩

theorem firstOrder_of_in (ht : t.In a.firstOrder) : t.FirstOrder :=
  ht.firstOrder not_false not_false

theorem Solution.expose (ha : a.Regular) (hσ : a.Solution σ) (ht : t.In a.firstOrder) :
    (a.expose t).subst σ = t.subst σ :=
  hσ.solves.expose a.firstOrder_firstOrder ha ht

/-- What the variables stand for is a solution. -/
theorem Regular.solution_value (ha : a.Regular) : a.Solution a.value := by
  refine ⟨fun v => ?_, solves_value ha.acyclic⟩
  cases hb : a.binding? v.id with
  | none =>
    rw [value_unbound hb]
    exact firstOrder_var v
  | some t =>
    obtain ⟨n, hn⟩ := name?_of_lt (lt_size_of_binding? hb)
    rw [value_bound hb]
    exact firstOrder_of_in (ha.closed.expose (ha.closed ⟨v.id, n⟩ t hn hb))

/-- Monotypes for the unbound variables extend to a solution. -/
theorem Regular.solution_extend (ha : a.Regular) (hσ : Plain σ) : a.Solution (a.extend σ) :=
  ⟨fun v => (ha.solution_value.plain v).subst fun w _ => hσ w, solves_extend a.firstOrder_firstOrder ha σ⟩

/-- A solution followed by a substitution is a solution. -/
theorem Solution.comp (ha : a.Regular) (hσ : a.Solution σ) (hτ : Plain τ) : a.Solution fun v => (σ v).subst τ := by
  refine ⟨fun v => (hσ.plain v).subst fun w _ => hτ w, fun v t hv ht => ?_⟩
  rw [hσ.solves v t hv ht, (firstOrder_of_in (ha.closed v t hv ht)).subst_subst]

/-- Only the variables that there are matter. -/
theorem Solution.congr (ha : a.Regular) (hσ : a.Solution σ) (hτ : Plain τ)
    (hagrees : ∀ v, a.firstOrder.vars v → τ v = σ v) : a.Solution τ := by
  refine ⟨hτ, fun v t hv ht => ?_⟩
  rw [hagrees v hv, hσ.solves v t hv ht]
  exact subst_congr fun w hw => (hagrees w ((ha.closed v t hv ht).vars hw)).symm

/-! ## Later arenas -/

variable {c : Arena}

/-- **A later arena**: it keeps what there was, and whatever solves it solves the earlier one. -/
structure Refines (a b : Arena) : Prop where
  grows : a.Extends b
  solution : ∀ {σ}, b.Solution σ → a.Solution σ

theorem Refines.refl (a : Arena) : a.Refines a :=
  ⟨.refl a, fun h => h⟩

theorem Refines.trans (hab : a.Refines b) (hbc : b.Refines c) : a.Refines c :=
  ⟨hab.grows.trans hbc.grows, fun h => hab.solution (hbc.solution h)⟩

theorem Refines.in (h : a.Refines b) (ht : t.In a.firstOrder) : t.In b.firstOrder :=
  ht.mono (firstOrder_le h.grows)

/-- Exposing a type early makes no difference later. -/
theorem Refines.expose (h : a.Refines b) (ha : a.Regular) (hb : b.Regular) (ht : t.In a.firstOrder) :
    b.expose (a.expose t) = b.expose t := by
  have hvalue := h.solution hb.solution_value
  rw [expose_unfold hb.acyclic, expose_unfold hb.acyclic, hvalue.expose ha ht]

/-- **A solution goes on** in a later arena: the variables that there were have the types they had. -/
structure Continues (a b : Arena) (σ τ : TyVar → Ty) : Prop where
  solution : b.Solution τ
  agrees : ∀ v, a.firstOrder.vars v → τ v = σ v

theorem Continues.subst (h : a.Continues b σ τ) (ht : t.In a.firstOrder) : t.subst τ = t.subst σ :=
  subst_congr fun v hv => h.agrees v (ht.vars hv)

theorem Continues.trans {υ : TyVar → Ty} (hab : a.Continues b σ τ) (hbc : b.Continues c τ υ)
    (h : a.Extends b) : a.Continues c σ υ := by
  refine ⟨hbc.solution, fun v hv => ?_⟩
  rw [hbc.agrees v ((firstOrder_le h).vars v hv), hab.agrees v hv]

/-! ## New variables -/

/-- Where nothing is bound anew, the solutions are the same. -/
theorem solution_of_same (h : a.Extends b) (hsame : ∀ id, b.binding? id = a.binding? id) :
    b.Solution σ ↔ a.Solution σ := by
  constructor
  · intro hσ
    refine ⟨hσ.plain, fun v t hv ht => hσ.solves v t ((firstOrder_le h).vars v hv) ?_⟩
    rw [hsame, ht]
  · intro hσ
    refine ⟨hσ.plain, fun v t hv ht => ?_⟩
    rw [hsame] at ht
    refine hσ.solves v t ?_ ht
    exact (h.name? _ (lt_size_of_binding? ht)).symm.trans hv

theorem Refines.of_same (h : a.Extends b) (hsame : ∀ id, b.binding? id = a.binding? id) : a.Refines b :=
  ⟨h, (solution_of_same h hsame).mp⟩

theorem Regular.of_same (ha : a.Regular) (h : a.Extends b) (hsame : ∀ id, b.binding? id = a.binding? id) :
    b.Regular := by
  refine ⟨fun v t hv ht => ?_, ha.acyclic.congr hsame, fun v hv => lt_size_of_name? hv⟩
  rw [hsame] at ht
  have howned : a.firstOrder.vars v := (h.name? _ (lt_size_of_binding? ht)).symm.trans hv
  exact (ha.closed v t howned ht).mono (firstOrder_le h)

/-- Solutions go on where nothing is bound anew. -/
theorem Solution.continues (ha : a.Regular) (hσ : a.Solution σ) (h : a.Extends b)
    (hsame : ∀ id, b.binding? id = a.binding? id) (hτ : Plain τ)
    (hagrees : ∀ v, a.firstOrder.vars v → τ v = σ v) : a.Continues b σ τ :=
  ⟨(solution_of_same h hsame).mpr (hσ.congr ha hτ hagrees), hagrees⟩

theorem refines_fresh (a : Arena) : a.Refines a.fresh.2 :=
  .of_same (.of_fresh a) a.binding?_fresh

theorem Regular.fresh (ha : a.Regular) : a.fresh.2.Regular :=
  ha.of_same (.of_fresh a) a.binding?_fresh

theorem fresh_in (a : Arena) : (var a.fresh.1).In a.fresh.2.firstOrder :=
  in_var.mpr a.name?_fresh_self

/-- **A new variable can be given any monotype.** -/
theorem Solution.fresh (ha : a.Regular) (hσ : a.Solution σ) {A : Ty} (hA : A.FirstOrder) :
    a.Continues a.fresh.2 σ (Function.update σ a.fresh.1 A) := by
  refine hσ.continues ha (.of_fresh a) a.binding?_fresh (fun v => ?_) fun v hv => ?_
  · by_cases h : v = a.fresh.1
    · rw [h, Function.update_self]
      exact hA
    · rw [Function.update_of_ne h]
      exact hσ.plain v
  · refine Function.update_of_ne ?_ A σ
    rintro rfl
    exact Nat.lt_irrefl _ (lt_size_of_name? hv)

end Arena

open Arena

/-! ## Unification -/

/-- **Unification leaves the solutions that make the two types equal**, and fails if there are none. -/
theorem unify_solutions {s : Store} (defs : Definitions) {l r : Ty} (hs : s.arena.Regular)
    (hl : l.In s.arena.firstOrder) (hr : r.In s.arena.firstOrder) :
    (s.unify defs l r).2.arena.Regular ∧ s.arena.Refines (s.unify defs l r).2.arena ∧
      (((s.unify defs l r).1 = .unified ∧ ∀ σ, (s.unify defs l r).2.arena.Solution σ ↔
          s.arena.Solution σ ∧ l.subst σ = r.subst σ) ∨
        ((s.unify defs l r).1 = .mismatch ∧ ∀ σ, s.arena.Solution σ → l.subst σ ≠ r.subst σ)) := by
  obtain ⟨hready, hdecides⟩ : (s.unify defs l r).2.arena.Ready s.arena.firstOrder ∧
      Decides s.arena.firstOrder (fun σ => l.subst σ = r.subst σ) s.arena
        (decide ((s.unify defs l r).1 = .unified)) (s.unify defs l r).2.arena :=
    unify_decides s.arena.firstOrder_firstOrder hl hr hs
  obtain ⟨hbinds, hback⟩ := s.unify_binds defs l r
  have hends : (s.unify defs l r).1 ≠ .endless :=
    unify_ends s.arena.firstOrder_firstOrder.coherent not_false hl hr hs.closed hs.acyclic
  -- no variable is handed out, so the fragment is the same
  have hfragment : (s.unify defs l r).2.arena.firstOrder = s.arena.firstOrder := by
    unfold firstOrder
    simp [hbinds.name?]
  refine ⟨by rw [Regular, hfragment]; exact hready, ?_⟩
  cases hverdict : (s.unify defs l r).1 with
  | endless => exact absurd hverdict hends
  | unified =>
    have hsolves := hdecides.success (decide_eq_true hverdict)
    have hiff : ∀ σ, (s.unify defs l r).2.arena.Solution σ ↔ s.arena.Solution σ ∧ l.subst σ = r.subst σ := by
      intro σ
      constructor
      · rintro ⟨hplain, hσ⟩
        rw [hfragment] at hσ
        obtain ⟨hσ, heq⟩ := (hsolves σ).mp hσ
        exact ⟨⟨hplain, hσ⟩, heq⟩
      · rintro ⟨⟨hplain, hσ⟩, heq⟩
        refine ⟨hplain, ?_⟩
        rw [hfragment]
        exact (hsolves σ).mpr ⟨hσ, heq⟩
    exact ⟨⟨hbinds.grows, fun hσ => ((hiff _).mp hσ).1⟩, Or.inl ⟨rfl, hiff⟩⟩
  | mismatch =>
    have hsame : (s.unify defs l r).2.arena = s.arena := hback (by rw [hverdict]; nofun)
    rw [hsame]
    refine ⟨.refl _, Or.inr ⟨rfl, fun σ hσ => ?_⟩⟩
    exact hdecides.failure (by rw [hverdict]; rfl) σ hσ.solves

/-! ## Application -/

/-- A type without unions and sums is its only alternative. -/
theorem decompose_firstOrder {a : Arena} {t : Ty} (ha : a.Regular) (ht : t.In a.firstOrder) :
    a.decompose t = [a.expose t] := by
  have hplain : (a.expose t).FirstOrder := firstOrder_of_in (ha.closed.expose ht)
  unfold decompose
  split
  · rename_i ms heq
    rw [heq] at hplain
    cases hplain _ (self_mem_subterms _)
  · rename_i n as os heq
    rw [heq] at hplain
    cases hplain _ (self_mem_subterms _)
  · rfl

/-- An argument is not split for a function with one alternative. -/
theorem splitArgument_firstOrder {f x : Ty} {s : Store} (hs : s.arena.Regular)
    (hf : f.In s.arena.firstOrder) : ∃ y, splitArgument f x s = (y, s) ∧ s.arena.expose y = s.arena.expose x := by
  refine ⟨s.arena.follow x, ?_, expose_follow hs.acyclic x⟩
  unfold splitArgument
  rw [decompose_firstOrder hs hf]
  split
  · rename_i v hv
    rw [hv]
    rfl
  · rfl

/-- Matching one argument against one function is a single unification. -/
theorem matchArguments_single (defs : Definitions) (x f : Ty) (s : Store) :
    matchArguments defs [x] [f] s = match s.fresh.2.unify defs (.func x s.fresh.1) f with
      | (.unified, after) =>
        some (⟨[after.arena.expose x], [after.arena.expose s.fresh.1]⟩, after)
      | (.mismatch, after) => some ({}, after)
      | (.endless, _) => none := by
  simp only [matchArguments, matchArgument]
  cases s.fresh.2.unify defs (.func x s.fresh.1) f with
  | mk verdict after => cases verdict <;> rfl

/-- An argument that found a match as it is, is not narrowed. -/
theorem narrowArgument_firstOrder {x y : Ty} {s : Store} (hs : s.arena.Acyclic)
    (h : s.arena.expose y = s.arena.expose x) :
    (narrowArgument x [s.arena.expose y] s) = s := by
  unfold narrowArgument
  split
  · rename_i v narrowed hv hnarrowed
    have hexpose : s.arena.expose y = .var v := by
      rw [h, ← expose_follow hs, hv, expose_unbound (unbound_of_follow hs hv)]
    rw [hexpose, (firstOrder_var v).union?] at hnarrowed
    rw [← Option.some.inj hnarrowed, if_pos]
    exact List.contains_iff_mem.mpr (self_mem_subterms _)
  · rfl

/-- The function that takes an argument to a new variable. -/
theorem applicand_in {a : Arena} {x : Ty} (ha : a.Regular) (hx : x.In a.firstOrder) :
    (func (a.expose x) (.var a.fresh.1)).In a.fresh.2.firstOrder :=
  in_func.mpr ⟨a.refines_fresh.in (ha.closed.expose hx), a.fresh_in⟩

/-- **Applying a function to an argument is a single unification**, of the function with one from the argument
    to a new variable, which is the result. -/
theorem apply_firstOrder {s : Store} {defs : Definitions} {f x : Ty} (hs : s.arena.Regular)
    (hf : f.In s.arena.firstOrder) (hx : x.In s.arena.firstOrder) :
    ∃ noted : Store, noted.arena = s.arena ∧ ∀ verdict after,
      noted.fresh.2.unify defs (.func (s.arena.expose x) noted.fresh.1) (s.arena.expose f) = (verdict, after) →
      (verdict = .unified → (s.apply defs f x).1 = .ok (after.arena.expose noted.fresh.1) ∧
        (s.apply defs f x).2.arena = after.arena) ∧
      (verdict ≠ .unified → ∃ e, (s.apply defs f x).1 = .error e) := by
  generalize happly : s.apply defs f x = out
  unfold apply at happly
  extract_lets start noted at happly
  refine ⟨noted, rfl, fun verdict after hunify => ?_⟩
  have hnoted : noted.arena.Regular := hs
  obtain ⟨y, hsplit, hy⟩ := splitArgument_firstOrder (x := x) hnoted hf
  have hplain : (s.arena.expose x).FirstOrder := firstOrder_of_in (hs.closed.expose hx)
  have hy' : noted.arena.expose y = s.arena.expose x := hy
  have hf' : noted.arena.decompose f = [s.arena.expose f] := decompose_firstOrder hs hf
  rw [hsplit] at happly
  simp only [hy', hplain.alternatives, hf', matchArguments_single, hunify] at happly
  cases verdict with
  | endless =>
    subst happly
    exact ⟨nofun, fun _ => ⟨_, rfl⟩⟩
  | mismatch =>
    subst happly
    exact ⟨nofun, fun _ => ⟨_, rfl⟩⟩
  | unified =>
    have hl : (func (s.arena.expose x) noted.fresh.1).In noted.fresh.2.arena.firstOrder :=
      applicand_in hs hx
    obtain ⟨hafter, hrefines, -⟩ := unify_solutions defs hs.fresh hl (s.arena.refines_fresh.in (hs.closed.expose hf))
    rw [hunify] at hafter hrefines
    have hexpose : after.arena.expose (s.arena.expose x) = after.arena.expose x :=
      (s.arena.refines_fresh.trans hrefines).expose hs hafter hx
    have hresult : noted.fresh.1.In after.arena.firstOrder := hrefines.in s.arena.fresh_in
    have hplain' := firstOrder_of_in (hafter.closed.expose hresult)
    have hunion : union? [after.arena.expose (after.arena.expose noted.fresh.1)] =
        some (after.arena.expose noted.fresh.1) := by
      rw [(Refines.refl _).expose hafter hafter hresult, hplain'.union?]
    simp only [narrowArgument_firstOrder hafter.acyclic hexpose, List.map_singleton, hunion] at happly
    subst happly
    exact ⟨fun _ => ⟨rfl, rfl⟩, fun h => absurd rfl h⟩

/-- **Application leaves the solutions under which the function takes the argument to the result.** It fails
    if there are none; and if it succeeds, every possible result is the result under some solution. -/
theorem apply_solutions {s : Store} (defs : Definitions) {f x : Ty} (hs : s.arena.Regular)
    (hf : f.In s.arena.firstOrder) (hx : x.In s.arena.firstOrder) :
    (∃ t, (s.apply defs f x).1 = .ok t ∧ (s.apply defs f x).2.arena.Regular ∧
      s.arena.Refines (s.apply defs f x).2.arena ∧ t.In (s.apply defs f x).2.arena.firstOrder ∧
      (∀ σ, (s.apply defs f x).2.arena.Solution σ → f.subst σ = .func (x.subst σ) (t.subst σ)) ∧
      ∀ σ r, s.arena.Solution σ → f.subst σ = .func (x.subst σ) r →
        ∃ τ, s.arena.Continues (s.apply defs f x).2.arena σ τ ∧ t.subst τ = r) ∨
    ((∃ e, (s.apply defs f x).1 = .error e) ∧ ∀ σ r, s.arena.Solution σ → f.subst σ ≠ .func (x.subst σ) r) := by
  obtain ⟨noted, hnoted, happly⟩ := apply_firstOrder hs hf hx
  rw [← hnoted] at hs hf hx happly ⊢
  have hl : (func (noted.arena.expose x) noted.fresh.1).In noted.fresh.2.arena.firstOrder :=
    applicand_in hs hx
  obtain ⟨hafter, hrefines, hverdict⟩ := unify_solutions defs hs.fresh hl
    (noted.arena.refines_fresh.in (hs.closed.expose hf))
  generalize hunify : noted.fresh.2.unify defs (.func (noted.arena.expose x) noted.fresh.1)
    (noted.arena.expose f) = out at hafter hrefines hverdict
  obtain ⟨verdict, after⟩ := out
  obtain ⟨hok, herror⟩ := happly verdict after hunify
  -- the equation is about the types as they are exposed; solutions do not see the difference
  have hequation : ∀ σ, noted.arena.Solution σ →
      ((func (noted.arena.expose x) noted.fresh.1).subst σ = (noted.arena.expose f).subst σ ↔
        f.subst σ = .func (x.subst σ) (noted.fresh.1.subst σ)) := by
    intro σ hσ
    rw [subst, hσ.expose hs hx, hσ.expose hs hf, eq_comm]
  -- the new variable is given the result that is possible
  have hgiven : ∀ σ r, noted.arena.Solution σ → f.subst σ = .func (x.subst σ) r →
      ∃ τ, noted.arena.Continues noted.fresh.2.arena σ τ ∧ noted.fresh.1.subst τ = r ∧
        f.subst τ = .func (x.subst τ) (noted.fresh.1.subst τ) := by
    intro σ r hσ heq
    have hr : (func (x.subst σ) r).FirstOrder := heq ▸ (firstOrder_of_in hf).subst fun v _ => hσ.plain v
    have hcontinues := hσ.fresh hs (firstOrder_func.mp hr).2
    have hresult : noted.fresh.1.subst (Function.update σ noted.arena.fresh.1 r) = r :=
      Function.update_self ..
    refine ⟨_, hcontinues, hresult, ?_⟩
    rw [hcontinues.subst hf, hcontinues.subst hx, hresult, heq]
  rcases hverdict with ⟨hunified, hsolutions⟩ | ⟨hmismatch, hnone⟩
  · obtain ⟨hresult, harena⟩ := hok hunified
    have hr : noted.fresh.1.In after.arena.firstOrder := hrefines.in noted.arena.fresh_in
    refine Or.inl ⟨_, hresult, ?_⟩
    rw [harena]
    refine ⟨hafter, noted.arena.refines_fresh.trans hrefines, hafter.closed.expose hr,
      fun σ hσ => ?_, fun σ r hσ heq => ?_⟩
    · rw [hσ.expose hafter hr]
      obtain ⟨hfresh, heq⟩ := (hsolutions σ).mp hσ
      exact (hequation σ (noted.arena.refines_fresh.solution hfresh)).mp heq
    · obtain ⟨τ, hτ, hrτ, heq⟩ := hgiven σ r hσ heq
      have hold := noted.arena.refines_fresh.solution hτ.solution
      have hsolved := (hsolutions τ).mpr ⟨hτ.solution, (hequation τ hold).mpr heq⟩
      exact ⟨τ, ⟨hsolved, hτ.agrees⟩, (hsolved.expose hafter hr).trans hrτ⟩
  · have hfailed : verdict ≠ .unified := by
      rintro rfl
      cases hmismatch
    refine Or.inr ⟨herror hfailed, fun σ r hσ heq => ?_⟩
    obtain ⟨τ, hτ, -, heq⟩ := hgiven σ r hσ heq
    exact hnone τ hτ.solution ((hequation τ (noted.arena.refines_fresh.solution hτ.solution)).mpr heq)

end UnionTyping
