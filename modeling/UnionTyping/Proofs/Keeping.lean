import UnionTyping.Proofs.Isolation

/-!
# `Proofs.Keeping` — kinds of types that typing does not leave

A kind of types that the solver keeps to is kept to by everything that is built on the solver: by the typing of
expressions, of groups, and of whole inputs. The argument does not depend on the kind: scopes are opened with fresh
variables, and what is left behind in them are types that the solver has found. So it is given once, for any invariant
that speaks of nothing but bindings, definitions and the types of symbols (`Houses`). Kinds for which only bindings and
symbols matter are an instance (`Kind`).
-/

namespace UnionTyping

open List

namespace Typing

open Check

variable {c d : Context}

/-- What every job keeps is kept by jobs in a row. -/
theorem Job.Chain.keeps {Q : Context → Prop} {jobs : List Job} (h : Job.Chain c jobs d) (hc : Q c)
    (hjobs : ∀ job ∈ jobs, Q job.before → Q job.after) : Q d := by
  induction jobs generalizing c with
  | nil => exact (show d = c from h) ▸ hc
  | cons job rest ih =>
    obtain ⟨rfl, hrest⟩ := h
    obtain ⟨hjob, hjobs⟩ := forall_mem_cons.mp hjobs
    exact ih hrest (hjob hc) hjobs

/-- What every group keeps is kept by groups in a row, up to the first that fails. -/
theorem checkGroups_keeps {Q : Context → Prop} (home : String) (decls : List Decl) (groups : List (List Nat))
    (hgroup : ∀ decls c, Q c → Q (checkGroup home decls c).2) (hc : Q c) : Q (checkGroups home decls groups c).2 := by
  refine (groupJobs_chain home decls groups c).keeps hc fun job hjob hbefore => ?_
  obtain ⟨members, -, -, hafter⟩ := mem_groupJobs hjob
  exact hafter ▸ hgroup members _ hbefore

/-! ## Invariants of what is in scope -/

variable {P : Ty → Prop} {b : Context}

/-- Typing restores scopes, keeps the invariant and gives types of the kind. -/
def scoping (I : Context → Prop) (P : Ty → Prop) : Discipline Context Ty where
  Inv := I
  Step := restoring.Step
  Out _ t := P t
  refl := restoring.refl
  trans := restoring.trans
  mono _ ht := ht

/-- **An invariant of bindings, definitions and symbols** that the solver keeps, with symbols of a kind that variables
    belong to. It can be put together from two contexts and new symbols. -/
structure Houses (I : Context → Prop) (P : Ty → Prop) : Prop extends Solving (scoping I P) where
  var : ∀ v, P (.var v)
  symbols : ∀ {c}, I c → ∀ s ∈ c.environment.scopes, ∀ e ∈ s.symbols, ∀ t ∈ e.2, P t
  rebuild : ∀ {b c d}, I b → I c → (∀ id, d.store.arena.binding? id = b.store.arena.binding? id) →
    d.definitions = c.definitions → (∀ s ∈ d.environment.scopes, ∀ e ∈ s.symbols, ∀ t ∈ e.2, P t) → I d

namespace Houses

variable {I : Context → Prop} (h : Houses I P)
include h

/-- The state in a scope inside. -/
theorem inner (hb : I b) (hc : I c) (hbindings : ∀ id, d.store.arena.binding? id = b.store.arena.binding? id)
    (hdefs : d.definitions = c.definitions) {s : Scope} (henv : d.environment = ⟨s, c.environment.scopes⟩)
    (hsymbols : ∀ e ∈ s.symbols, ∀ t ∈ e.2, P t) : I d := by
  refine h.rebuild hb hc hbindings hdefs ?_
  rw [henv]
  intro s' hs'
  rcases mem_cons.mp hs' with rfl | hs'
  · exact hsymbols
  · exact h.symbols hc s' hs'

/-- The state once an inner scope is closed. -/
theorem outer (hb : I b) (hc : I c) (harena : d.store.arena = b.store.arena) (hstep : restoring.Step c d) : I d :=
  h.rebuild hb hc (fun _ => by rw [harena]) hstep.2 (hstep.1 ▸ h.symbols hc)

/-- A scope with a fresh pinned variable, that of a parameter or of a local name. -/
theorem openParameter (hc : I c) (x : Ident) : I (openParameter x c).2 ∧ P (openParameter x c).1 := by
  refine ⟨h.inner hc hc (c.store.arena.binding?_fresh ·) rfl rfl fun e he t ht => ?_, h.var _⟩
  rw [mem_singleton.mp he] at ht
  exact mem_singleton.mp ht ▸ h.var _

/-- A local name, in the scope of its own, once its value is typed. -/
theorem boundValue (hc : I c) (x : Ident) {value : Check TypedExpr} (hvalue : value.Obeys (scoping I P) [] typeOnly) :
    I (boundValue x value c.enter).2 ∧
      ∃ s, (boundValue x value c.enter).2.environment = ⟨s, c.environment.scopes⟩ ∧
        (boundValue x value c.enter).2.definitions = c.definitions := by
  obtain ⟨hopen, hvar⟩ := h.openParameter hc x
  obtain ⟨htyped, hstep⟩ := typeValue_obeys h.toSolving hvalue hopen hvar
  refine ⟨?_, boundValue_scopes x hstep⟩
  -- the scope is made anew behind the value, with the name in it or, after an error, without
  obtain ⟨journal, hok | ⟨_, hfailed⟩⟩ := boundValue_cases x value rfl hstep.1
  · rw [hok]
    refine h.inner htyped hc (fun _ => rfl) hstep.2 rfl fun e he t ht => ?_
    rw [mem_singleton.mp he] at ht
    exact mem_singleton.mp ht ▸ hvar
  · rw [hfailed]
    exact h.inner htyped hc (fun _ => rfl) hstep.2 rfl (by simp)

/-- **Typing keeps to the kind.** -/
theorem disciplined : Disciplined (scoping I P) where
  toSolving := h.toSolving
  parameter := by
    intro x body hbody
    refine parameter_obeys x hbody fun c hc => ?_
    obtain ⟨hopen, hvar⟩ := h.openParameter hc x
    refine ⟨hvar, hopen, fun d hd hstep => ?_⟩
    have hclosed := closeParameter_open x c d hstep
    exact ⟨h.outer hd hc (arena_closeParameter _ _) hclosed, hclosed, fun t ht => ht⟩
  binding := by
    intro span x value body hvalue hbody
    refine binding_obeys span x hbody fun c hc => ?_
    obtain ⟨hbound, s, hscopes⟩ := h.boundValue hc x hvalue
    refine ⟨hbound, fun d hd hstep => ?_⟩
    have hclosed := leave_restores hscopes hstep
    exact ⟨h.outer (d := d.leave) hd hc rfl hclosed, hclosed, fun t ht => ht⟩

/-- The bodies of a group are typed against fresh variables. -/
theorem openGroup {β : Type} (group : List (Locator × β)) (hc : I c) :
    I (Context.openGroup group c).2 ∧ ∀ m ∈ (Context.openGroup group c).1, P m.type := by
  induction group generalizing c with
  | nil => exact ⟨hc, by simp [Context.openGroup]⟩
  | cons g rest ih =>
    have hfirst : I ((c.fresh.2.define g.1 c.fresh.1).pin c.fresh.1) := by
      refine h.rebuild hc hc (c.store.arena.binding?_fresh ·) rfl fun s hs => ?_
      rcases mem_cons.mp hs with rfl | hs
      · intro e he t ht
        have hdefine : c.environment.innermost.Changes [g.1] P
            (c.environment.innermost.define g.1 c.fresh.1) := .define (mem_singleton.mpr rfl) (h.var _)
        rcases hdefine.types e he t ht with hnew | ⟨e', he', ht'⟩
        · exact hnew
        · exact h.symbols hc _ mem_cons_self e' he' t ht'
      · exact h.symbols hc s (mem_cons_of_mem _ hs)
    obtain ⟨hrest, hmembers⟩ := ih hfirst
    refine ⟨hrest, fun m hm => ?_⟩
    rcases mem_cons.mp hm with rfl | hm
    · exact h.var _
    · exact hmembers m hm

/-! ## Jobs

Between jobs there is one scope. -/

/-- Types of the kind take the place of others in the only scope, or join them. -/
theorem of_changes (hb : I b) (hc : I c) (harena : d.store.arena = b.store.arena)
    (hdefs : d.definitions = b.definitions) {symbols : List Locator}
    (hchanges : c.environment.Changes symbols P d.environment) : I d ∧ d.environment.outer = [] := by
  refine ⟨h.rebuild hb hb (fun _ => by rw [harena]) hdefs fun s hs e he t ht => ?_, hchanges.after⟩
  rw [Environment.scopes, hchanges.after] at hs
  rw [mem_singleton.mp hs] at he
  rcases hchanges.scope.types e he t ht with hnew | ⟨e', he', ht'⟩
  · exact hnew
  · exact h.symbols hc _ mem_cons_self e' he' t ht'

theorem forgetAll (hc : I c ∧ c.environment.outer = []) (symbols : List Locator) :
    I (symbols.foldl Context.forget c) ∧ (symbols.foldl Context.forget c).environment.outer = [] := by
  rw [forgetAll_state]
  exact h.of_changes hc.1 hc.1 rfl rfl (.foldl (fun l hl e he => .forget he hl) hc.2)

/-- **A group of declarations keeps to the kind.** -/
theorem checkGroup (hc : I c ∧ c.environment.outer = []) (home : String) (decls : List Decl) :
    I (checkGroup home decls c).2 ∧ (Typing.checkGroup home decls c).2.environment.outer = [] := by
  refine checkGroup_keeps (P := fun d => I d ∧ d.environment.outer = []) (fun d hd => h.forgetAll hd _)
    (fun d hd => ?_) hc
  obtain ⟨hopened, hmembers⟩ := h.openGroup (decls.map fun d => (declared home d, asBody (infer home d.body))) hd.1
  obtain ⟨typed, htyped, -, harena, hdefs, hchanges⟩ :=
    declareGroup_obeys h.toSolving (fun h => h) InferenceError.diagnostic _ [] hd.2 hopened hmembers
      fun g hg own d hd => by
        obtain ⟨decl, _, rfl⟩ := mem_map.mp hg
        exact asBody_obeys (h.disciplined.infer_obeys home decl.body) own d hd
  exact h.of_changes htyped hd.1 harena hdefs hchanges

theorem infer (hc : I c ∧ c.environment.outer = []) (home : String) (e : Expr) :
    I (infer home e c).2 ∧ (Typing.infer home e c).2.environment.outer = [] := by
  obtain ⟨htyped, hstep, -⟩ := h.disciplined.infer_obeys home e c hc.1 (by simp)
  exact ⟨htyped, by rw [hstep.1, hc.2]⟩

theorem checkExpr (hc : I c ∧ c.environment.outer = []) (e : Expr) :
    I (checkExpr e c).2 ∧ (Typing.checkExpr e c).2.environment.outer = [] := by
  have hout := (h.disciplined.infer_obeys c.home e c hc.1 (by simp)).2.2
  have htyped := h.infer hc c.home e
  rcases checkExpr_cases e c with ⟨d, hfailed⟩ | ⟨body, typed, hbody, hok⟩
  · rw [hfailed]
    exact htyped
  · -- the type of the expression, as it is seen, takes the place of that of the expression before it
    have ht := h.expose _ _ htyped.1 (hout body hbody _ mem_cons_self)
    have hforget := h.forgetAll htyped [.declaration c.home latest]
    rw [hok]
    exact h.of_changes hforget.1 hforget.1 rfl rfl (.define hforget.2 (mem_singleton.mpr rfl) ht)

/-- Loading touches nothing that the invariant speaks of. -/
theorem load (hc : I c ∧ c.environment.outer = []) (input : Input) :
    I (input.load c) ∧ (input.load c).environment.outer = [] := by
  obtain ⟨hstore, henv, hdefs⟩ := input.load_state c
  rw [henv]
  exact ⟨h.rebuild hc.1 hc.1 (fun _ => by rw [hstore]) hdefs (henv ▸ h.symbols hc.1), hc.2⟩

/-- **Checking keeps to the kind**, whatever comes of it. -/
theorem check (hc : I c ∧ c.environment.outer = []) (input : Input) :
    I (input.check c) ∧ (input.check c).environment.outer = [] := by
  refine (input.jobs_chain c).keeps (Q := fun d => I d ∧ d.environment.outer = []) (h.load hc input)
    fun job hjob hbefore => ?_
  cases input with
  | expression e =>
    rw [mem_singleton.mp hjob] at hbefore ⊢
    exact h.checkExpr hbefore e
  | program p =>
    simp only [Input.jobs] at hjob
    split at hjob
    · cases hjob
    · obtain ⟨members, _, _, hafter⟩ := mem_groupJobs hjob
      rw [hafter]
      exact h.checkGroup hbefore p.home members

end Houses

/-! ## Kinds -/

/-- **Everything in the context is of one kind**, bindings and symbols. Definitions may be anything. -/
structure Keeping (P : Ty → Prop) (c : Context) : Prop where
  bindings : ∀ id t, c.store.arena.binding? id = some t → P t
  symbols : ∀ s ∈ c.environment.scopes, ∀ e ∈ s.symbols, ∀ t ∈ e.2, P t

/-- Typing restores scopes, and gives types of the kind. -/
def keeping (P : Ty → Prop) : Discipline Context Ty :=
  scoping (Keeping P) P

/-- **A kind of types that the solver keeps to**, and that variables belong to. -/
structure Kind (P : Ty → Prop) : Prop extends Solving (keeping P) where
  var : ∀ v, P (.var v)

theorem Kind.houses (hP : Kind P) : Houses (Keeping P) P where
  toSolving := hP.toSolving
  var := hP.var
  symbols hc := hc.symbols
  rebuild hb _ hbindings _ hsymbols := ⟨fun id t ht => hb.bindings id t (hbindings id ▸ ht), hsymbols⟩

end Typing
end UnionTyping
