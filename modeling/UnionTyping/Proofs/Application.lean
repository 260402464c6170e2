import UnionTyping.Solve.Apply
import UnionTyping.Proofs.Copying

/-!
# `Proofs.Application` — what unification and application keep

An application splits its argument, matches the parts against the alternatives of the function one by one, and
narrows the argument to those that found a match. A discipline that each of these steps keeps is kept by
applications as a whole (`Applying.apply`), whether they succeed or fail.

Application hands out variables, so a fragment given by the variables of an arena has to grow with it. A
`Regime` is such a growing fragment. Whatever the solver does under a regime stays in it: the arena grows,
only variables of the fragment are bound, and they are bound to types of the fragment (`Regime.Keeps`). This is
the first discipline that applications keep (`apply_keeps`).
-/

namespace UnionTyping

open List Store Arena

open Arena (Confined)

/-! ## Steps of an application -/

variable {s : Store} {argument : Ty}

theorem binding?_freshMany (n : Nat) (s : Store) (id : Nat) :
    (freshMany n s).2.arena.binding? id = s.arena.binding? id := by
  induction n generalizing s with
  | zero => rfl
  | succ n ih => exact (ih _).trans (s.arena.binding?_fresh id)

/-- Splitting an argument binds nothing. -/
theorem binding?_splitArgument (function argument : Ty) (s : Store) (id : Nat) :
    (splitArgument function argument s).2.arena.binding? id = s.arena.binding? id := by
  unfold splitArgument
  split
  · simp only []
    split
    · rfl
    · exact binding?_freshMany _ s id
  · rfl

/-- **How an application ends.** The argument is split; then either a comparison is given up and nothing
    else is done, or nothing matches and all bindings are undone, or the argument is narrowed and the
    results are joined. -/
theorem apply_cases (defs : Definitions) (function argument : Ty) (s : Store) :
    ∃ message constrained split, splitArgument function argument (s.note .trace message) = (constrained, split) ∧
      ((∃ e, s.apply defs function argument = (.error e, split)) ∨
        ∃ matched after, matchArguments defs (split.arena.expose constrained).alternatives
            (split.arena.decompose function) split = some (matched, after) ∧
          ((∃ e, s.apply defs function argument = (.error e, after.rollback s.arena.snapshot)) ∨
            matched.results ≠ [] ∧ ∃ narrowed, narrowed = narrowArgument argument matched.arguments after ∧
              ((s.apply defs function argument).2 = narrowed ∨
                ∃ message, (s.apply defs function argument).2 = narrowed.note .debug message) ∧
              ∀ t, (s.apply defs function argument).1 = .ok t ↔
                Ty.union? (matched.results.map narrowed.arena.expose) = some t)) := by
  refine ⟨fun _ => "[app] solving: (" ++ s.shown function ++ ") (" ++ s.shown argument ++ ")", _, _, rfl, ?_⟩
  generalize hout : s.apply defs function argument = out
  unfold Store.apply at hout
  simp only [] at hout
  split at hout
  · subst hout
    exact Or.inl ⟨_, rfl⟩
  rename_i matched after hmatch
  refine Or.inr ⟨matched, after, hmatch, ?_⟩
  split at hout
  · subst hout
    exact Or.inl ⟨_, rfl⟩
  rename_i hsome
  refine Or.inr ⟨fun hnil => hsome (by rw [hnil]; rfl), _, rfl, ?_⟩
  split at hout
  · rename_i result hunion
    subst hout
    exact ⟨Or.inr ⟨_, rfl⟩, fun t => by rw [hunion, Except.ok.injEq, Option.some.injEq]⟩
  · rename_i hunion
    subst hout
    refine ⟨Or.inl rfl, fun t => ?_⟩
    rw [hunion]
    exact ⟨nofun, nofun⟩

/-- **What a discipline has to say about applications**: that it is kept by unification, and where a variable is
    handed out, an argument is narrowed or bindings are undone. -/
structure Applying (D : Discipline Store Ty) (defs : Definitions) : Prop where
  func : ∀ {s a r}, D.Out s a → D.Out s r → D.Out s (.func a r)
  union? : ∀ {s ts t}, (∀ u ∈ ts, D.Out s u) → Ty.union? ts = some t → D.Out s t
  alternative : ∀ {s t u}, D.Out s t → u ∈ t.alternatives → D.Out s u
  follow : ∀ {s t}, D.Inv s → D.Out s t → D.Out s (s.arena.follow t)
  expose : ∀ {s t}, D.Inv s → D.Out s t → D.Out s (s.arena.expose t)
  decompose : ∀ {s t u}, D.Inv s → D.Out s t → u ∈ s.arena.decompose t → D.Out s u
  note : ∀ {s} level message, level ≠ .warn → D.Inv s →
    D.Inv (s.note level message) ∧ D.Step s (s.note level message)
  fresh : ∀ {s}, D.Inv s → D.Inv s.fresh.2 ∧ D.Step s s.fresh.2 ∧ D.Out s.fresh.2 s.fresh.1
  unify : ∀ {s l r}, D.Inv s → D.Out s l → D.Out s r →
    D.Inv (s.unify defs l r).2 ∧ D.Step s (s.unify defs l r).2
  narrow : ∀ {s argument matched}, D.Inv s → D.Out s argument → (∀ t ∈ matched, D.Out s t) →
    D.Inv (narrowArgument argument matched s) ∧ D.Step s (narrowArgument argument matched s)
  undo : ∀ {s s'}, D.Inv s → D.Inv s' → D.Step s s' →
    D.Inv (s'.rollback s.arena.snapshot) ∧ D.Step s (s'.rollback s.arena.snapshot)

namespace Applying

variable {D : Discipline Store Ty} {defs : Definitions} (hD : Applying D defs) {s' : Store}
include hD

theorem freshMany (n : Nat) (hs : D.Inv s) : D.Inv (freshMany n s).2 ∧ D.Step s (Store.freshMany n s).2 ∧
    ∀ t ∈ (Store.freshMany n s).1, D.Out (Store.freshMany n s).2 t := by
  induction n generalizing s with
  | zero => exact ⟨hs, D.refl s, by simp [Store.freshMany]⟩
  | succ n ih =>
    obtain ⟨hinv, hstep, hout⟩ := hD.fresh hs
    obtain ⟨hinv', hrest, hall⟩ := ih hinv
    refine ⟨hinv', D.trans hstep hrest, fun t ht => ?_⟩
    rcases mem_cons.mp ht with rfl | ht
    · exact D.mono hrest hout
    · exact hall t ht

theorem splitArgument (function : Ty) (hs : D.Inv s) (harg : D.Out s argument) :
    D.Inv (splitArgument function argument s).2 ∧ D.Step s (Store.splitArgument function argument s).2 ∧
      D.Out (Store.splitArgument function argument s).2 (Store.splitArgument function argument s).1 := by
  have hfollow := hD.follow hs harg
  unfold Store.splitArgument
  split
  · rename_i v hv
    rw [hv] at hfollow
    simp only []
    split
    · exact ⟨hs, D.refl s, hfollow⟩
    · obtain ⟨hinv, hstep, hparts⟩ := hD.freshMany (s.arena.decompose function).length hs
      refine ⟨hinv, hstep, ?_⟩
      cases hunion : Ty.union? (Store.freshMany (s.arena.decompose function).length s).1 with
      | some t => exact hD.union? hparts hunion
      | none => exact D.mono hstep hfollow
  · exact ⟨hs, D.refl s, hfollow⟩

/-- **Matching one argument** keeps the discipline; the results are allowed by it. -/
theorem matchArgument {alternatives : List Ty} {m : Matching} (hs : D.Inv s) (harg : D.Out s argument)
    (halts : ∀ t ∈ alternatives, D.Out s t) (h : matchArgument defs argument alternatives s = some (m, s')) :
    D.Inv s' ∧ D.Step s s' ∧ m.remaining ⊆ alternatives ∧ ∀ t ∈ m.results, D.Out s' t := by
  induction alternatives generalizing s m with
  | nil =>
    cases h
    exact ⟨hs, D.refl _, nil_subset _, by simp⟩
  | cons alternative rest ih =>
    obtain ⟨hinv₁, hfresh, hresult⟩ := hD.fresh hs
    obtain ⟨halt, hrest⟩ := forall_mem_cons.mp halts
    -- A match binds variables for good: the rest is matched in the arena that it leaves.
    obtain ⟨hinv₂, hunify⟩ := hD.unify hinv₁ (hD.func (D.mono hfresh harg) hresult) (D.mono hfresh halt)
    have hstep := D.trans hfresh hunify
    have hmore := fun m => ih (m := m) hinv₂ (D.mono hstep harg) fun t ht => D.mono hstep (hrest t ht)
    unfold Store.matchArgument at h
    simp only [] at h
    split at h
    · rename_i s₂ heq
      rw [heq] at hinv₂ hunify hstep hmore
      obtain ⟨⟨m', s₃⟩, hmatch, h⟩ := Option.bind_eq_some_iff.mp h
      cases h
      obtain ⟨hinv, hsteps, hsub, hresults⟩ := hmore m' hmatch
      refine ⟨hinv, D.trans hstep hsteps, subset_cons_of_subset _ hsub, forall_mem_cons.mpr ⟨?_, hresults⟩⟩
      exact D.mono hsteps (hD.expose hinv₂ (D.mono hunify hresult))
    · rename_i s₂ heq
      rw [heq] at hstep hmore
      obtain ⟨⟨m', s₃⟩, hmatch, h⟩ := Option.bind_eq_some_iff.mp h
      cases h
      obtain ⟨hinv, hsteps, hsub, hresults⟩ := hmore m' hmatch
      exact ⟨hinv, D.trans hstep hsteps, cons_subset_cons _ hsub, hresults⟩
    · cases h

/-- **Matching all arguments** keeps the discipline; the arguments that found a match and the results are allowed by
    it. -/
theorem matchArguments {arguments functions : List Ty} {m : Matched} (hs : D.Inv s)
    (hargs : ∀ t ∈ arguments, D.Out s t) (hfuns : ∀ t ∈ functions, D.Out s t)
    (h : matchArguments defs arguments functions s = some (m, s')) :
    D.Inv s' ∧ D.Step s s' ∧ (∀ t ∈ m.arguments, D.Out s' t) ∧ ∀ t ∈ m.results, D.Out s' t := by
  induction arguments generalizing functions s m with
  | nil =>
    cases h
    exact ⟨hs, D.refl _, by simp, by simp⟩
  | cons argument rest ih =>
    obtain ⟨⟨m₁, s₁⟩, hmatch, h⟩ := Option.bind_eq_some_iff.mp h
    obtain ⟨⟨m₂, s₂⟩, hmore, h⟩ := Option.bind_eq_some_iff.mp h
    cases h
    obtain ⟨harg, hrest⟩ := forall_mem_cons.mp hargs
    obtain ⟨hinv₁, hstep, hsub, hresults⟩ := hD.matchArgument hs harg hfuns hmatch
    obtain ⟨hinv₂, hstep', hargs', hresults'⟩ :=
      ih hinv₁ (fun t ht => D.mono hstep (hrest t ht)) (fun t ht => D.mono hstep (hfuns t (hsub ht))) hmore
    refine ⟨hinv₂, D.trans hstep hstep', fun t ht => ?_, fun t ht => ?_⟩
    · simp only [] at ht
      split at ht
      · exact hargs' t ht
      · rcases mem_cons.mp ht with rfl | ht
        · exact D.mono hstep' (hD.expose hinv₁ (D.mono hstep harg))
        · exact hargs' t ht
    · rcases mem_append.mp ht with ht | ht
      · exact D.mono hstep' (hresults t ht)
      · exact hresults' t ht

/-- **What comes of an application** under a discipline, which it keeps in any case: either it fails and every
    binding made on the way is undone, or there are results, and it gives their union. -/
theorem outcome {function : Ty} (hs : D.Inv s) (hfun : D.Out s function) (harg : D.Out s argument) :
    D.Inv (s.apply defs function argument).2 ∧ D.Step s (s.apply defs function argument).2 ∧
      ((∃ e, (s.apply defs function argument).1 = .error e ∧
          ((∀ id, (s.apply defs function argument).2.arena.binding? id = s.arena.binding? id) ∨
            ∃ after, D.Step s after ∧ (s.apply defs function argument).2 = after.rollback s.arena.snapshot)) ∨
        ∃ results, results ≠ [] ∧ (∀ t ∈ results, D.Out (s.apply defs function argument).2 t) ∧
          ∀ t, (s.apply defs function argument).1 = .ok t ↔ Ty.union? results = some t) := by
  obtain ⟨message, constrained, split, hsplit, hcases⟩ := apply_cases defs function argument s
  obtain ⟨hinv, hnoted⟩ := hD.note .trace message (by decide) hs
  obtain ⟨hinv₁, hstep₁, hconstrained⟩ := hD.splitArgument function hinv (D.mono hnoted harg)
  have hsame := binding?_splitArgument function argument (s.note .trace message)
  rw [hsplit] at hinv₁ hstep₁ hconstrained hsame
  have hstep := D.trans hnoted hstep₁
  rcases hcases with ⟨e, he⟩ | ⟨matched, after, hmatch, hcases⟩
  · rw [he]
    exact ⟨hinv₁, hstep, Or.inl ⟨e, rfl, Or.inl hsame⟩⟩
  obtain ⟨hinv₂, hstep₂, hargs, hresults⟩ := hD.matchArguments hinv₁
    (fun t ht => hD.alternative (hD.expose hinv₁ hconstrained) ht)
    (fun t ht => hD.decompose hinv₁ (D.mono hstep hfun) ht) hmatch
  have hafter := D.trans hstep hstep₂
  rcases hcases with ⟨e, he⟩ | ⟨hne, narrowed, rfl, hend, hok⟩
  · obtain ⟨hback, hundone⟩ := hD.undo hs hinv₂ hafter
    rw [he]
    exact ⟨hback, hundone, Or.inl ⟨e, rfl, Or.inr ⟨after, hafter, rfl⟩⟩⟩
  · obtain ⟨hinv₃, hstep₃⟩ := hD.narrow hinv₂ (D.mono hafter harg) hargs
    have hshown := forall_mem_map.mpr fun u hu => hD.expose hinv₃ (D.mono hstep₃ (hresults u hu))
    have hnarrowed := D.trans hafter hstep₃
    have hne' : matched.results.map (narrowArgument argument matched.arguments after).arena.expose ≠ [] :=
      fun hnil => hne (map_eq_nil_iff.mp hnil)
    rcases hend with h | ⟨message, h⟩
    · rw [h]
      exact ⟨hinv₃, hnarrowed, Or.inr ⟨_, hne', hshown, hok⟩⟩
    · obtain ⟨hinv₄, hstep₄⟩ := hD.note .debug message (by decide) hinv₃
      rw [h]
      exact ⟨hinv₄, D.trans hnarrowed hstep₄, Or.inr ⟨_, hne', fun t ht => D.mono hstep₄ (hshown t ht), hok⟩⟩

/-- **Application keeps the discipline**, whether it succeeds or fails, and its result is allowed by it. -/
theorem apply {function : Ty} (hs : D.Inv s) (hfun : D.Out s function) (harg : D.Out s argument) :
    D.Inv (s.apply defs function argument).2 ∧ D.Step s (s.apply defs function argument).2 ∧
      ∀ t, (s.apply defs function argument).1 = .ok t → D.Out (s.apply defs function argument).2 t := by
  obtain ⟨hinv, hstep, ⟨e, he, _⟩ | ⟨results, _, hresults, hok⟩⟩ := hD.outcome hs hfun harg
  · rw [he]
    exact ⟨hinv, hstep, nofun⟩
  · exact ⟨hinv, hstep, fun t ht => hD.union? hresults ((hok t).mp ht)⟩

end Applying

/-! ## Regimes -/

/-- **A fragment for each arena**, which grows with the arena, takes in every variable that is handed out
    once there are `base` of them, and depends on the names of variables only. -/
structure Regime where
  fragment : Arena → Fragment
  base : Nat
  choices : ∀ a, (fragment a).choices
  grow : ∀ {a b : Arena}, a.Extends b → (fragment a).Le (fragment b)
  old : ∀ {a b : Arena} {v : TyVar}, a.Extends b → (fragment b).vars v → v.id < a.size →
    (fragment a).vars v
  fresh : ∀ a : Arena, base ≤ a.size → (fragment a.fresh.2).vars a.fresh.1
  placeholders : ∀ {a b : Arena}, a.Extends b →
    ((fragment b).placeholders → (fragment a).placeholders)
  steady : ∀ {a b : Arena}, (∀ id, b.name? id = a.name? id) → fragment b = fragment a

namespace Regime

variable (R : Regime)

/-- The bindings and the definitions are in the fragment. -/
structure Holds (defs : Definitions) (a : Arena) : Prop where
  base : R.base ≤ a.size
  closed : a.Closed (R.fragment a)
  defs : defs.In (R.fragment a)

/-- **What is kept** on the way from one arena to a later one. -/
structure Keeps (a b : Arena) : Prop where
  grows : a.Extends b
  closed : b.Closed (R.fragment b)
  inside : ∀ id, a.binding? id = none → (b.binding? id).isSome →
    ∃ v, (R.fragment b).vars v ∧ v.id = id
  acyclic : (∀ c, (R.fragment c).Coherent) → a.Acyclic → b.Acyclic

namespace Keeps

variable {a b : Arena} {R}

theorem «in» (h : R.Keeps a b) {t : Ty} (ht : t.In (R.fragment a)) : t.In (R.fragment b) :=
  ht.mono (R.grow h.grows)

theorem holds {defs : Definitions} (h : R.Keeps a b) (ha : R.Holds defs a) : R.Holds defs b :=
  ⟨Nat.le_trans ha.base h.grows.size_le, h.closed,
    fun hp e he => (ha.defs (R.placeholders h.grows hp) e he).mono (R.grow h.grows)⟩

theorem trans {c : Arena} (hab : R.Keeps a b) (hbc : R.Keeps b c) : R.Keeps a c := by
  refine ⟨hab.grows.trans hbc.grows, hbc.closed, fun id hnone hsome => ?_,
    fun hR ha => hbc.acyclic hR (hab.acyclic hR ha)⟩
  cases hb : b.binding? id with
  | none => exact hbc.inside id hb hsome
  | some t =>
    obtain ⟨v, hv, hid⟩ := hab.inside id hnone (by rw [hb]; rfl)
    exact ⟨v, (R.grow hbc.grows).vars v hv, hid⟩

/-- Where no binding changes, all is kept. -/
theorem of_same (ha : a.Closed (R.fragment a)) (h : a.Extends b)
    (hsame : ∀ id, b.binding? id = a.binding? id) : R.Keeps a b := by
  refine ⟨h, fun v t hv ht => ?_, fun id hnone hsome => ?_, fun _ hac => hac.congr hsame⟩
  · rw [hsame] at ht
    exact (ha v t (R.old h hv (lt_size_of_binding? ht)) ht).mono (R.grow h)
  · rw [hsame, hnone] at hsome
    cases hsome

theorem refl (ha : a.Closed (R.fragment a)) : R.Keeps a a :=
  .of_same ha (.refl a) fun _ => rfl

/-- Binding within the fragment keeps all. -/
theorem of_confined (hbinds : a.Binds b) (h : Confined (R.fragment a) a b) : R.Keeps a b := by
  have hsteady : R.fragment b = R.fragment a := R.steady hbinds.name?
  refine ⟨hbinds.grows, ?_, ?_, fun hR ha => h.acyclic (hR a) ha⟩
  · rw [hsteady]
    exact h.closed
  · rw [hsteady]
    exact h.inside

end Keeps

end Regime

/-- Undoing leaves the arena with the variables handed out since, all of them unbound. -/
theorem Arena.Extends.rollback {a b : Arena} (h : a.Extends b) : a.Extends (b.rollback a.snapshot) :=
  h.rollback_below h (Nat.le_refl _)

/-! ## Unification under a regime -/

section Solving

variable {R : Regime} {defs : Definitions}

theorem unify_keeps (hs : R.Holds defs s.arena) {l r : Ty} (hl : l.In (R.fragment s.arena))
    (hr : r.In (R.fragment s.arena)) : R.Keeps s.arena (s.unify defs l r).2.arena := by
  unfold unify
  split
  · rename_i after h
    obtain ⟨hbinds, hconf⟩ := compareWithin_confining hs.defs _ _ _ _ _ _ _ h
    exact .of_confined hbinds (hconf hl hr hs.closed)
  · rename_i after h
    have hgrows := (compareWithin_binds _ _ _ _ _ _ _ _ h).grows
    exact .of_same hs.closed hgrows.rollback (binding?_rollback hgrows)
  · exact .refl hs.closed

/-! ## Applications under a regime -/

theorem fresh_keeps (hs : R.Holds defs s.arena) :
    R.Keeps s.arena s.fresh.2.arena ∧ s.fresh.1.In (R.fragment s.fresh.2.arena) :=
  ⟨.of_same hs.closed (.of_fresh s.arena) (binding?_fresh s.arena), Ty.in_var.mpr (R.fresh s.arena hs.base)⟩

/-- **Narrowing** an argument keeps the regime: the variable is looked for in what it is bound to. -/
theorem narrowArgument_keeps {matched : List Ty} (hs : R.Holds defs s.arena)
    (harg : argument.In (R.fragment s.arena)) (hmatched : ∀ t ∈ matched, t.In (R.fragment s.arena)) :
    R.Keeps s.arena (narrowArgument argument matched s).arena := by
  have hfollow := hs.closed.follow harg
  unfold narrowArgument
  split
  · rename_i v narrowed hv hunion
    rw [hv] at hfollow
    split
    · exact .refl hs.closed
    · rename_i hoccurs
      have hnarrowed := Ty.In.of_union? (R.choices _) hmatched hunion
      simp only []
      rcases bind_cases (s.note .debug fun _ =>
          "narrowed '" ++ v.name ++ " to " ++ narrowed.text) v.id narrowed with
        ⟨b, hb, _, hb'⟩ | ⟨_, _, hsame⟩
      · rw [hb']
        refine .of_confined (.of_bind hb)
          (.of_bind hs.closed (Ty.in_var.mp hfollow) hnarrowed hb fun hF hac hreach => hoccurs ?_)
        -- What is looked for is the variable with its name; a path leads to its number only.
        have hfree : s.arena.binding? v.id = none := unbound_of_bind hb
        obtain ⟨w, hw, hid⟩ := mem_expose_of_reaches hac hreach hfree
        have hwv : w = v := hF w v ((hs.closed.expose hnarrowed).vars hw) (Ty.in_var.mp hfollow) hid
        subst hwv
        unfold occursIn
        rw [expose_unbound hfree]
        exact contains_iff_mem.mpr (Ty.var_mem_subterms.mpr hw)
      · rw [hsame]
        exact .refl hs.closed
  · exact .refl hs.closed

theorem decompose_in {F : Fragment} {a : Arena} (ha : a.Closed F) {t u : Ty} (ht : t.In F)
    (hu : u ∈ a.decompose t) : u.In F := by
  have hexposed := ha.expose ht
  unfold decompose at hu
  split at hu
  · rename_i members heq
    rw [heq] at hexposed
    exact hexposed.child hu
  · rename_i n args options heq
    rw [heq] at hexposed
    obtain ⟨o, ho, rfl⟩ := mem_map.mp hu
    exact Ty.In.unroll hexposed (hexposed.child (mem_append_right _ ho))
  · rw [mem_singleton.mp hu]
    exact hexposed

/-- Under a regime the arena grows, and what is given and what is bound stay in the fragment. -/
def Regime.discipline (R : Regime) (defs : Definitions) : Discipline Store Ty where
  Inv s := R.Holds defs s.arena
  Step s s' := s.arena.Extends s'.arena ∧ (R.Holds defs s.arena → R.Keeps s.arena s'.arena)
  Out s t := t.In (R.fragment s.arena)
  refl _ := ⟨.refl _, fun h => .refl h.closed⟩
  trans h h' := ⟨h.1.trans h'.1, fun hs => (h.2 hs).trans (h'.2 ((h.2 hs).holds hs))⟩
  mono h ht := ht.mono (R.grow h.1)

theorem Regime.Keeps.step {s' : Store} (h : R.Keeps s.arena s'.arena) (hs : R.Holds defs s.arena) :
    (R.discipline defs).Inv s' ∧ (R.discipline defs).Step s s' :=
  ⟨h.holds hs, h.grows, fun _ => h⟩

/-- **Regimes are kept by applications.** -/
theorem Regime.applying (R : Regime) (defs : Definitions) : Applying (R.discipline defs) defs where
  func ha hr := Ty.in_func.mpr ⟨ha, hr⟩
  union? hts h := Ty.In.of_union? (R.choices _) hts h
  alternative ht hu := Ty.In.alternative ht hu
  follow hs ht := hs.closed.follow ht
  expose hs ht := hs.closed.expose ht
  decompose hs ht hu := decompose_in hs.closed ht hu
  note _ _ _ hs := Regime.Keeps.step (.refl hs.closed) hs
  fresh hs := ⟨(fresh_keeps hs).1.holds hs, ((fresh_keeps hs).1.step hs).2, (fresh_keeps hs).2⟩
  unify hs hl hr := (unify_keeps hs hl hr).step hs
  narrow hs harg hmatched := (narrowArgument_keeps hs harg hmatched).step hs
  undo hs _ hstep := Regime.Keeps.step (.of_same hs.closed hstep.1.rollback (binding?_rollback hstep.1)) hs

/-- **Application keeps the regime**, whether it succeeds or fails, and its result is in the fragment. -/
theorem apply_keeps {function : Ty} (hs : R.Holds defs s.arena) (hfun : function.In (R.fragment s.arena))
    (harg : argument.In (R.fragment s.arena)) : R.Keeps s.arena (s.apply defs function argument).2.arena ∧
      ∀ t, (s.apply defs function argument).1 = .ok t → t.In (R.fragment (s.apply defs function argument).2.arena) := by
  obtain ⟨-, hstep, hout⟩ := (R.applying defs).apply hs hfun harg
  exact ⟨hstep.2 hs, hout⟩

end Solving

end UnionTyping
