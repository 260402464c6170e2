import UnionTyping.Typing.Infer
import UnionTyping.Proofs.Copying

/-!
# `Proofs.Scopes` — what is opened is closed again

Typing an expression opens scopes, defines local symbols in them and pins types, and it may fail anywhere
in between. By the end the environment is what it was, to the last candidate and pinned type
(`infer_restores`). A group of declarations leaves its symbols behind if it succeeds, and nothing else is
different either way (`declareGroup_cases`).

Typing is a computation that changes the context and may break off. `Check.Obeys` says that such a
computation keeps a `Discipline`; sequences of steps are put together with `Check.Obeys.bind`.
-/

namespace UnionTyping

open List Context TypedExpr

/-! ## Computations that may fail -/

variable {d : Context}

namespace Check

variable {ι α β : Type}

/-- The second step is taken if the first one succeeds. -/
theorem run_bind (m : Check α) (k : α → Check β) (c : Context) :
    (m >>= k) c = match m c with
      | (.ok a, d) => k a d
      | (.error e, d) => (.error e, d) := by
  change (ExceptT.bindCont k (m c).1 : StateM Context (Except Diagnostic β)) (m c).2 = _
  cases m c with
  | mk r d => cases r <;> rfl

@[simp] theorem run_pure (a : α) (c : Context) : (pure a : Check α) c = (.ok a, c) := rfl

@[simp] theorem run_get (c : Context) : (get : Check Context) c = (.ok c, c) := rfl

@[simp] theorem run_set (c d : Context) : (set d : Check PUnit) c = (.ok ⟨⟩, d) := rfl

@[simp] theorem run_modify (f : Context → Context) (c : Context) : (modify f : Check PUnit) c = (.ok ⟨⟩, f c) := rfl

@[simp] theorem run_lift (r : Except Diagnostic α) (c : Context) : (liftM r : Check α) c = (r, c) := by
  cases r <;> rfl

/-- **The step keeps the discipline**, if what is given was allowed before: whether it succeeds or fails,
    and if it succeeds, then with a value made of allowed parts. -/
def Obeys (D : Discipline Context ι) (given : List ι) (parts : α → List ι) (m : Check α) : Prop :=
  ∀ c, D.Inv c → (∀ x ∈ given, D.Out c x) →
    D.Inv (m c).2 ∧ D.Step c (m c).2 ∧ ∀ a, (m c).1 = .ok a → ∀ x ∈ parts a, D.Out (m c).2 x

namespace Obeys

variable {D : Discipline Context ι} {given : List ι} {parts : α → List ι} {parts' : β → List ι}

theorem pure {a : α} (h : parts a ⊆ given) : Obeys D given parts (pure a) := by
  rintro c hc hgiven
  refine ⟨hc, D.refl c, fun b hb x hx => hgiven x (h ?_)⟩
  cases hb
  exact hx

theorem weaken {given' : List ι} {m : Check α} (h : Obeys D given parts m) (hsub : given ⊆ given') :
    Obeys D given' parts m :=
  fun c hc hgiven => h c hc fun x hx => hgiven x (hsub hx)

/-- One step after the other; what the first one gave is given to the second. -/
theorem bind {m : Check α} {k : α → Check β} (hm : Obeys D given parts m)
    (hk : ∀ a, Obeys D (given ++ parts a) parts' (k a)) : Obeys D given parts' (m >>= k) := by
  intro c hc hgiven
  obtain ⟨hinv, hstep, hout⟩ := hm c hc hgiven
  rw [run_bind]
  cases h : m c with
  | mk r d =>
    rw [h] at hinv hstep hout
    cases r with
    | error e => exact ⟨hinv, hstep, nofun⟩
    | ok a =>
      obtain ⟨hinv', hstep', hout'⟩ := hk a d hinv fun x hx => by
        rcases mem_append.mp hx with hx | hx
        · exact D.mono hstep (hgiven x hx)
        · exact hout a rfl x hx
      exact ⟨hinv', D.trans hstep hstep', hout'⟩

/-- One step after another that gives nothing to it. -/
theorem bind_nil {m : Check α} {k : α → Check β} (hm : Obeys D given (fun _ => []) m)
    (hk : ∀ a, Obeys D given parts' (k a)) : Obeys D given parts' (m >>= k) :=
  hm.bind fun a => (hk a).weaken (subset_append_left _ _)

/-- A step of inference, with its failure located. -/
theorem located {span : Span} {step : Context → Except InferenceError α × Context}
    (h : ∀ c, D.Inv c → (∀ x ∈ given, D.Out c x) → D.Inv (step c).2 ∧ D.Step c (step c).2 ∧
      ∀ a, (step c).1 = .ok a → ∀ x ∈ parts a, D.Out (step c).2 x) :
    Obeys D given parts (Check.located span step) := by
  intro c hc hgiven
  have hstep := h c hc hgiven
  unfold Check.located
  cases hrun : step c with
  | mk r d =>
    rw [hrun] at hstep
    cases r with
    | ok a => exact ⟨hstep.1, hstep.2.1, fun b hb => hstep.2.2 b (congrArg Except.ok (Except.ok.inj hb))⟩
    | error e => exact ⟨hstep.1, hstep.2.1, nofun⟩

end Obeys

/-- **What a discipline has to say about the solver**: that its steps are allowed, with types that are, and
    that types are made of allowed ones in allowed ways. -/
structure Solving (D : Discipline Context Ty) : Prop where
  simple : ∀ c n, D.Out c (.simple n)
  func : ∀ c a r, D.Out c a → D.Out c r → D.Out c (.func a r)
  union? : ∀ c ts t, (∀ u ∈ ts, D.Out c u) → Ty.union? ts = some t → D.Out c t
  expose : ∀ c t, D.Inv c → D.Out c t → D.Out c (c.expose t)
  note : ∀ c level message, level ≠ .warn → D.Inv c →
    D.Inv (c.note level message) ∧ D.Step c (c.note level message)
  lookup : ∀ c l, D.Inv c → D.Inv (c.typeOf l).2 ∧ D.Step c (c.typeOf l).2 ∧
    ∀ t, (c.typeOf l).1 = .ok t → D.Out (c.typeOf l).2 t
  unify : ∀ c l r, D.Inv c → D.Out c l → D.Out c r → D.Inv (c.unify l r).2 ∧ D.Step c (c.unify l r).2
  apply : ∀ c f a, D.Inv c → D.Out c f → D.Out c a → D.Inv (c.apply f a).2 ∧ D.Step c (c.apply f a).2 ∧
    ∀ t, (c.apply f a).1 = .ok t → D.Out (c.apply f a).2 t

end Check

/-! ## Pins and candidates -/

variable {ts : List Ty}

namespace Environment

/-- Defines several symbols in order. -/
def defineAll (symbols : List (Locator × Ty)) (e : Environment) : Environment :=
  symbols.foldl (fun e s => e.define s.1 s.2) e

/-- Removes several candidates in order. -/
def undefineAll (symbols : List (Locator × Ty)) (e : Environment) : Environment :=
  symbols.foldl (fun e s => e.undefine s.1 s.2) e

/-- Pins several types, of which the first is the latest. -/
def pinAll (ts : List Ty) (e : Environment) : Environment :=
  { e with innermost := { e.innermost with pinned := ts ++ e.innermost.pinned } }

theorem defineAll_pin (symbols : List (Locator × Ty)) (e : Environment) (t : Ty) :
    (e.pin t).defineAll symbols = (e.defineAll symbols).pin t := by
  induction symbols generalizing e with
  | nil => rfl
  | cons s rest ih => exact ih (e.define s.1 s.2)

theorem pinAll_append (ts us : List Ty) (e : Environment) : e.pinAll (ts ++ us) = (e.pinAll us).pinAll ts := by
  simp [pinAll]

/-- The innermost scope is changed if the change applies to it. -/
theorem changeInnermost?_of_innermost {e : Environment} {change : Scope → Option Scope} {s : Scope}
    (h : change e.innermost = some s) : e.changeInnermost? change = some ⟨s, e.outer⟩ := by
  simp [changeInnermost?, scopes, changeFirst?, h]

/-- **A pin of the innermost scope is released there.** -/
theorem unpin?_pinAll {t : Ty} (h : t ∈ ts) (e : Environment) :
    (e.pinAll ts).unpin? t = some (e.pinAll (ts.erase t)) := by
  have hpinned : (e.pinAll ts).innermost.unpin? t = some (e.pinAll (ts.erase t)).innermost := by
    have hmem : (ts ++ e.innermost.pinned).contains t = true :=
      contains_iff_mem.mpr (mem_append_left _ h)
    simp only [Scope.unpin?, pinAll, if_pos hmem, erase_append_left _ h]
  exact changeInnermost?_of_innermost hpinned

/-- A symbol that is defined in a new scope and removed again leaves no trace. -/
theorem undefine_define_enter (e : Environment) (l : Locator) (t : Ty) :
    (e.enter.define l t).undefine l t = e.enter := by
  have hsymbols : (e.enter.define l t).innermost.undefine? l t = some {} := by
    simp [define, enter, Scope.define, Scope.addCandidate, Scope.undefine?, Scope.get?, Scope.forget]
  unfold undefine undefine?
  rw [changeInnermost?_of_innermost hsymbols]
  rfl

end Environment

/-! ## Groups of declarations -/

variable {c : Context} {D : Discipline Context Ty}

namespace Context

variable {β ε σ : Type}

/-- The symbol and the type of a member. -/
def Member.entry (m : Member β) : Locator × Ty :=
  (m.symbol, m.type)

/-- Opening a group defines its symbols and pins their types. -/
theorem openGroup_environment (group : List (Locator × β)) (c : Context) :
    (openGroup group c).2.environment =
      (c.environment.defineAll ((openGroup group c).1.map Member.entry)).pinAll
        ((openGroup group c).1.map Member.type).reverse := by
  induction group generalizing c with
  | nil => rfl
  | cons g rest ih =>
    simp only [openGroup, map_cons, reverse_cons]
    rw [ih, Environment.pinAll_append]
    exact congrArg _ (Environment.defineAll_pin _ _ _)

theorem openGroup_definitions (group : List (Locator × β)) (c : Context) :
    (openGroup group c).2.definitions = c.definitions := by
  induction group generalizing c with
  | nil => rfl
  | cons g rest ih => exact ih _

/-- A pin of the innermost scope is found and released. -/
theorem unpin_of_pinned {t : Ty} {e : Environment} (ht : t ∈ ts) (hc : c.environment = e.pinAll ts) :
    c.unpin t = { c with environment := e.pinAll (ts.erase t) } := by
  unfold unpin
  rw [hc, Environment.unpin?_pinAll ht]

/-- **Closing a group releases exactly its pins**, and every one of them is found. -/
theorem unpin_members {members : List (Member β)} {e : Environment} (h : ts.Perm (members.map Member.type))
    (c : Context) (hc : c.environment = e.pinAll ts) :
    members.foldl (fun c m => c.unpin m.type) c = { c with environment := e } := by
  induction members generalizing ts c with
  | nil =>
    rw [map_nil, perm_nil] at h
    subst h
    obtain ⟨home, store, definitions, environment, modules⟩ := c
    exact congrArg (mk home store definitions · modules) hc
  | cons m rest ih =>
    have hmem : m.type ∈ ts := h.mem_iff.mpr mem_cons_self
    rw [foldl_cons, unpin_of_pinned hmem hc]
    exact ih (by simpa using h.erase m.type) _ rfl

/-- Expecting a type does no more to the context than unifying. -/
theorem expect_state (c : Context) (expected found : Ty) :
    (c.expect expected found).2 = (c.unify expected found).2 := by
  unfold expect
  split <;> simp_all

/-- **The bodies of a group keep a discipline** if each of them does. -/
theorem typeBodies_obeys (hD : Check.Solving D) (wrap : InferenceError → ε) {members : List (Member (Body ε σ))}
    (hbodies : ∀ m ∈ members, ∀ own c, D.Inv c → D.Inv (m.body own c).2.2 ∧ D.Step c (m.body own c).2.2 ∧
      ∀ t, (m.body own c).1 = .ok t → D.Out (m.body own c).2.2 t)
    (own : σ) (c : Context) (hc : D.Inv c) (hmembers : ∀ m ∈ members, D.Out c m.type) :
    D.Inv (typeBodies wrap members own c).2.2 ∧ D.Step c (typeBodies wrap members own c).2.2 := by
  induction members generalizing own c with
  | nil => exact ⟨hc, D.refl c⟩
  | cons m rest ih =>
    obtain ⟨hm, hrest⟩ := forall_mem_cons.mp hbodies
    -- The body is typed, its type is compared with the variable of the symbol, and the rest follows.
    unfold typeBodies
    extract_lets noted
    obtain ⟨hinv₁, hstep₁⟩ :=
      hD.note c .trace (fun _ => "[decl] solving: " ++ m.symbol.text) (by decide) hc
    obtain ⟨hinv₂, hstep₂, hout⟩ := hm own noted hinv₁
    have hstep := D.trans hstep₁ hstep₂
    cases hbody : m.body own noted with
    | mk outcome rest' =>
      obtain ⟨own', c'⟩ := rest'
      rw [hbody] at hinv₂ hstep hout
      cases outcome with
      | error e => exact ⟨hinv₂, hstep⟩
      | ok t =>
        have hmtype := D.mono hstep (hmembers m mem_cons_self)
        obtain ⟨hinv₃, hstep₃⟩ := hD.unify c' m.type t hinv₂ hmtype (hout t rfl)
        rw [← expect_state] at hinv₃ hstep₃
        have hstep := D.trans hstep hstep₃
        simp only []
        cases hexpect : c'.expect m.type t with
        | mk outcome d =>
          rw [hexpect] at hinv₃ hstep
          cases outcome with
          | error e => exact ⟨hinv₃, hstep⟩
          | ok _ =>
            obtain ⟨hinv, hstep'⟩ := ih hrest own' d hinv₃ fun m' hm' =>
              D.mono hstep (hmembers m' (mem_cons_of_mem _ hm'))
            exact ⟨hinv, D.trans hstep hstep'⟩

/-- Collecting the types of a group writes to the journal only. -/
theorem collectTypes_state (members : List (Member β)) (c : Context) :
    ∃ journal, (collectTypes members c).2 = { c with store := { c.store with journal } } := by
  induction members generalizing c with
  | nil => exact ⟨c.store.journal, rfl⟩
  | cons m rest ih =>
    unfold collectTypes
    split
    · exact ⟨c.store.journal, rfl⟩
    · extract_lets t noted
      obtain ⟨journal, hrest⟩ := ih noted
      cases hcollect : collectTypes rest noted with
      | mk outcome d =>
        rw [hcollect] at hrest
        cases outcome with
        | ok ts => exact ⟨journal, hrest⟩
        | error symbol => exact ⟨journal, hrest⟩

/-- The types found for a group are what is seen of its variables. -/
theorem collectTypes_ok {members : List (Member β)} {types : List Ty} (h : collectTypes members c = (.ok types, d)) :
    types = members.map fun m => c.expose m.type := by
  induction members generalizing c types with
  | nil =>
    cases h
    rfl
  | cons m rest ih =>
    unfold collectTypes at h
    split at h
    · cases h
    · extract_lets t noted at h
      cases hcollect : collectTypes rest noted with
      | mk outcome d' =>
        rw [hcollect] at h
        cases outcome with
        | error symbol => cases h
        | ok ts =>
          cases h
          have hrest := ih hcollect
          exact congrArg (t :: ·) hrest

theorem withdraw_state (members : List (Member β)) (c : Context) : withdraw members c =
    { c with environment := c.environment.undefineAll (members.map Member.entry) } := by
  induction members generalizing c with
  | nil => rfl
  | cons m rest ih => exact ih (c.undefine m.symbol m.type)

/-- **What a group does**: it is opened and its bodies are typed. If that succeeds its symbols are left, with the
    types that are seen of their variables; if it fails not even those. -/
theorem declareGroup_cases {wrap : InferenceError → ε} {group : List (Locator × Body ε σ)} {own own' : σ}
    {opened : Context} {members : List (Member (Body ε σ))} {outcome : Except ε Unit}
    (hopen : openGroup group c = (members, opened))
    (hbodies : typeBodies wrap members own opened = (outcome, own', d))
    (hrestores : d.environment = opened.environment) : ∃ journal, let symbols := members.map Member.entry
      let closed := { d with store := { d.store with journal } }
      (journal = d.store.journal ∨ ∃ e, journal = (collectTypes members { d with environment := e }).2.store.journal) ∧
      ((outcome = .ok () ∧ declareGroup wrap group own c = (.ok (members.map fun m => d.expose m.type), own',
        { closed with environment := c.environment.defineAll symbols })) ∨
      ∃ e, declareGroup wrap group own c = (.error e, own',
        { closed with environment := (c.environment.defineAll symbols).undefineAll symbols })) := by
  -- Since the bodies restored what they found, the variables pinned last are those of the group.
  have henv : d.environment = (c.environment.defineAll (members.map Member.entry)).pinAll
      (members.map Member.type).reverse := by
    have h := openGroup_environment group c
    rw [hopen] at h
    rw [hrestores, h]
  have hclose := unpin_members (reverse_perm (members.map Member.type)) d henv
  unfold declareGroup
  simp only [hopen, hbodies, hclose]
  cases outcome with
  | error e => exact ⟨d.store.journal, .inl rfl, .inr ⟨e, congrArg (_, own', ·) (withdraw_state _ _)⟩⟩
  | ok _ =>
    obtain ⟨journal, hcollect⟩ := collectTypes_state members
      { d with environment := c.environment.defineAll (members.map Member.entry) }
    refine ⟨journal, .inr ⟨_, by rw [hcollect]⟩, ?_⟩
    cases hrun : collectTypes members { d with environment := c.environment.defineAll (members.map Member.entry) } with
    | mk outcome d' =>
      rw [hrun] at hcollect
      subst hcollect
      cases outcome with
      | ok types =>
        have htypes := collectTypes_ok hrun
        subst htypes
        exact Or.inl ⟨rfl, rfl⟩
      | error symbol => exact Or.inr ⟨_, congrArg (_, own', ·) (withdraw_state _ _)⟩

end Context

/-! ## Expressions -/

namespace Typing

open Check

/-- The type of a typed expression. -/
abbrev typeOnly (e : TypedExpr) : List Ty := [e.type]

/-- **What a discipline has to say about typing**: that it is kept by the solver, and where scopes are opened
    and closed. -/
structure Disciplined (D : Discipline Context Ty) : Prop extends Solving D where
  parameter : ∀ x (body : Check TypedExpr), body.Obeys D [] typeOnly →
    Obeys D [] (fun r : Ty × TypedExpr => [r.1, r.2.type])
      (within (openParameter x) closeParameter fun v => do return (v, ← body))
  binding : ∀ span x (value body : Check TypedExpr), value.Obeys D [] typeOnly →
    body.Obeys D [] typeOnly →
    Obeys D [] typeOnly (within (fun c => ((), c.enter)) (fun _ c => c.leave) fun _ => do
      let (t, value) ← boundValue x value
      let body ← body
      return .binding span body.type ⟨.variable x.name, t⟩ value body)

namespace Disciplined

variable (hD : Disciplined D)
include hD

theorem reference_obeys (span : Span) (l : Locator) : (reference span l).Obeys D [] typeOnly := by
  have hlookup : Obeys D [] (fun t : Ty => [t]) (located span fun c => c.typeOf l) := by
    refine .located fun c hc _ => ?_
    obtain ⟨hinv, hstep, hout⟩ := hD.lookup c l hc
    exact ⟨hinv, hstep, fun t ht x hx => mem_singleton.mp hx ▸ hout t ht⟩
  exact hlookup.bind fun t => .pure (by simp [type])

theorem applied_obeys (span : Span) (f a : TypedExpr) : (applied span f a).Obeys D [f.type, a.type] typeOnly := by
  have happly : Obeys D [f.type, a.type] (fun t : Ty => [t]) (located span fun c => c.apply f.type a.type) := by
    refine .located fun c hc hgiven => ?_
    obtain ⟨hinv, hstep, hout⟩ := hD.apply c f.type a.type hc (hgiven _ (by simp)) (hgiven _ (by simp))
    exact ⟨hinv, hstep, fun t ht x hx => mem_singleton.mp hx ▸ hout t ht⟩
  exact happly.bind fun t => .pure (by simp [type])

theorem expect_obeys (span : Span) (found : Ty) :
    Obeys D [found] (fun _ => []) (located span fun c => c.expect .boolean found) := by
  refine .located fun c hc hgiven => ?_
  rw [expect_state]
  obtain ⟨hinv, hstep⟩ := hD.unify c .boolean found hc (hD.simple c _) (hgiven _ (by simp))
  exact ⟨hinv, hstep, fun _ _ x hx => absurd hx not_mem_nil⟩

/-- The branches of a conditional: unified, or else joined. -/
theorem branchType_obeys (span : Span) (a b : Ty) : (branchType span a b).Obeys D [a, b] fun t => [t] := by
  unfold branchType
  refine .bind_nil (.located fun c hc hgiven => ?_) fun verdict c hc hgiven => ?_
  · obtain ⟨hinv, hstep⟩ := hD.unify c a b hc (hgiven _ (by simp)) (hgiven _ (by simp))
    cases hrun : c.unify a b with
    | mk verdict d =>
      rw [hrun] at hinv hstep
      cases verdict <;> exact ⟨hinv, hstep, fun _ _ x hx => absurd hx not_mem_nil⟩
  · have ha := hD.expose c a hc (hgiven a (by simp))
    have hb := hD.expose c b hc (hgiven b (by simp))
    split
    · simp only [run_bind, run_get, run_pure]
      refine ⟨hc, D.refl c, ?_⟩
      rintro _ ⟨⟩ t ht
      exact mem_singleton.mp ht ▸ ha
    · simp only [run_bind, run_get]
      cases hunion : Ty.union? [c.expose a, c.expose b] with
      | some t =>
        simp only [run_pure]
        refine ⟨hc, D.refl c, ?_⟩
        rintro _ ⟨⟩ u hu
        rw [mem_singleton.mp hu]
        exact hD.union? c _ _ (by simp [ha, hb]) hunion
      | none => exact ⟨hc, D.refl c, nofun⟩

/-- **Typing an expression keeps every discipline.** -/
theorem infer_obeys (home : String) (e : Expr) : (infer home e).Obeys D [] typeOnly := by
  induction e with
  | literal span v =>
    unfold infer
    intro c hc _
    refine ⟨hc, D.refl c, ?_⟩
    rintro _ ⟨⟩ t ht
    rw [mem_singleton.mp ht]
    cases v <;> exact hD.simple c _
  | name span p =>
    unfold infer
    exact fun c => hD.reference_obeys span (resolve c home p) c
  | apply span f a hf ha =>
    unfold infer
    refine hf.bind fun f => (ha.weaken (by simp)).bind fun a => ?_
    exact (hD.applied_obeys span f a).weaken (by simp)
  | binary span op l r hl hr =>
    unfold infer
    refine (hD.reference_obeys span _).bind fun f => (hl.weaken (by simp)).bind fun l => ?_
    refine (hr.weaken (by simp)).bind fun r => ?_
    refine ((hD.applied_obeys span f l).weaken (by simp)).bind fun half => ?_
    exact (hD.applied_obeys span half r).weaken (by simp)
  | unary span op x hx =>
    unfold infer
    refine (hD.reference_obeys span _).bind fun f => (hx.weaken (by simp)).bind fun x => ?_
    exact (hD.applied_obeys span f x).weaken (by simp)
  | lambda span x body hbody =>
    unfold infer
    refine (hD.parameter x _ hbody).bind fun r c hc hgiven => ⟨hc, D.refl c, ?_⟩
    rintro _ ⟨⟩ t ht
    rw [mem_singleton.mp ht]
    exact hD.func c _ _ (hD.expose c r.1 hc (hgiven _ (by simp))) (hgiven _ (by simp))
  | conditional span c a b hc ha hb =>
    unfold infer
    refine hc.bind fun c => ((hD.expect_obeys c.span c.type).weaken (by simp)).bind fun _ => ?_
    refine (ha.weaken (by simp)).bind fun a => (hb.weaken (by simp)).bind fun b => ?_
    refine ((hD.branchType_obeys span a.type b.type).weaken (by simp)).bind fun t => .pure ?_
    simp [type]
  | binding span x value body hvalue hbody =>
    unfold infer
    exact hD.binding span x _ _ hvalue hbody

end Disciplined

/-! ## Parameters and local bindings -/

variable {value : Check TypedExpr}

/-- What happens in the scope of a parameter. -/
theorem run_parameter (x : Ident) (body : Check TypedExpr) (c : Context) :
    within (openParameter x) closeParameter (fun v => do return (v, ← body)) c =
    match body (openParameter x c).2 with
    | (.error e, d) => (.error e, closeParameter (openParameter x c).1 d)
    | (.ok body, d) => (.ok ((openParameter x c).1, body), closeParameter (openParameter x c).1 d) := by
  unfold within
  simp only [run_bind]
  cases body (openParameter x c).2 with
  | mk r d => cases r <;> rfl

/-- **A scope that can be closed**: whatever is done in it from `inner` on, once it is closed the discipline
    was kept from `outer` on, and what was allowed inside is allowed still. -/
def Closes (D : Discipline Context Ty) (outer inner : Context) (close : Context → Context) : Prop :=
  D.Inv inner ∧ ∀ d, D.Inv d → D.Step inner d →
    D.Inv (close d) ∧ D.Step outer (close d) ∧ ∀ t, D.Out d t → D.Out (close d) t

theorem parameter_obeys (x : Ident) {body : Check TypedExpr} (hbody : body.Obeys D [] typeOnly)
    (hopen : ∀ c, D.Inv c → D.Out (openParameter x c).2 (openParameter x c).1 ∧
      Closes D c (openParameter x c).2 (closeParameter (openParameter x c).1)) :
    Obeys D [] (fun r : Ty × TypedExpr => [r.1, r.2.type])
      (within (openParameter x) closeParameter fun v => do return (v, ← body)) := by
  intro c hc _
  obtain ⟨hvar, hinv, hclose⟩ := hopen c hc
  obtain ⟨hinner, hstep, hout⟩ := hbody (openParameter x c).2 hinv (by simp)
  obtain ⟨hclosed, houter, hallowed⟩ := hclose _ hinner hstep
  have hvar := hallowed _ (D.mono hstep hvar)
  rw [run_parameter]
  cases hrun : body (openParameter x c).2 with
  | mk r d =>
    rw [hrun] at hclosed houter hallowed hvar hout
    cases r with
    | error e => exact ⟨hclosed, houter, nofun⟩
    | ok b =>
      refine ⟨hclosed, houter, ?_⟩
      rintro _ ⟨⟩ t ht
      rcases mem_cons.mp ht with rfl | ht
      · exact hvar
      · exact hallowed t (hout b rfl t ht)

/-- An expression as the body of a declaration. -/
theorem asBody_obeys {step : Check TypedExpr} (h : step.Obeys D [] typeOnly) (typed : List TypedExpr) (c : Context)
    (hc : D.Inv c) : D.Inv (asBody step typed c).2.2 ∧ D.Step c (asBody step typed c).2.2 ∧
      ∀ t, (asBody step typed c).1 = .ok t → D.Out (asBody step typed c).2.2 t := by
  have hstep := h c hc (by simp)
  unfold asBody
  cases hrun : step c with
  | mk r d =>
    rw [hrun] at hstep
    obtain ⟨hinv, hstep, hout⟩ := hstep
    cases r with
    | ok e =>
      refine ⟨hinv, hstep, ?_⟩
      rintro _ ⟨⟩
      exact hout e rfl _ mem_cons_self
    | error d => exact ⟨hinv, hstep, nofun⟩

/-- The value of a local binding, typed against the variable of its name. Its scope is opened in the same way
    as that of a parameter. -/
def typeValue (x : Ident) (value : Check TypedExpr) (c : Context) :
    Except Diagnostic Unit × List TypedExpr × Context :=
  typeBodies InferenceError.diagnostic
    [⟨.variable x.name, (openParameter x c).1, asBody value⟩] [] (openParameter x c).2

/-- The group of a local binding is opened like a parameter. -/
theorem openGroup_value (x : Ident) (value : Check TypedExpr) (c : Context) :
    openGroup [(.variable x.name, asBody value)] c.enter =
      ([⟨.variable x.name, (openParameter x c).1, asBody value⟩], (openParameter x c).2) :=
  rfl

/-- The value of a local binding keeps a discipline that holds where it is opened. -/
theorem typeValue_obeys (hD : Solving D) {x : Ident} (hvalue : value.Obeys D [] typeOnly)
    (hinv : D.Inv (openParameter x c).2) (hout : D.Out (openParameter x c).2 (openParameter x c).1) :
    D.Inv (typeValue x value c).2.2 ∧ D.Step (openParameter x c).2 (typeValue x value c).2.2 := by
  refine typeBodies_obeys hD _ (fun m hm own d hd => ?_) [] _ hinv fun m hm => ?_
  · rw [mem_singleton.mp hm]
    exact asBody_obeys hvalue own d hd
  · rw [mem_singleton.mp hm]
    exact hout

/-- A local binding is a group of one declaration. -/
theorem boundValue_of_group {x : Ident} {outcome : Except Diagnostic (List Ty)} {typed : List TypedExpr}
    (h : c.declareGroup InferenceError.diagnostic [(.variable x.name, asBody value)] [] = (outcome, typed, d)) :
    (boundValue x value c).2 = d ∧ ∀ e, outcome = .error e → ∃ e', (boundValue x value c).1 = .error e' := by
  unfold boundValue declare
  rw [h]
  cases outcome with
  | error e => exact ⟨rfl, fun _ _ => ⟨_, rfl⟩⟩
  | ok types =>
    cases types with
    | nil => exact ⟨rfl, nofun⟩
    | cons t ts => cases typed <;> exact ⟨rfl, nofun⟩

/-- **What a local binding does**: in a scope of its own, its name is left with the variable if the value is
    typed, and there is nothing left of it otherwise. -/
theorem boundValue_cases (x : Ident) (value : Check TypedExpr) {outcome : Except Diagnostic Unit}
    {typed : List TypedExpr} (htyped : typeValue x value c = (outcome, typed, d))
    (hrestores : d.environment = (openParameter x c).2.environment) :
    ∃ journal, let closed := { d with store := { d.store with journal } }
      (boundValue x value c.enter).2 = { closed with
        environment := c.enter.environment.define (.variable x.name) (openParameter x c).1 } ∨
      (∃ e, (boundValue x value c.enter).1 = .error e) ∧
        (boundValue x value c.enter).2 = { closed with environment := c.enter.environment } := by
  obtain ⟨journal, -, ⟨-, hok⟩ | ⟨e, herror⟩⟩ := declareGroup_cases (openGroup_value x value c) htyped hrestores
  · exact ⟨journal, Or.inl (boundValue_of_group hok).1⟩
  · obtain ⟨hstate, hfailed⟩ := boundValue_of_group herror
    refine ⟨journal, Or.inr ⟨hfailed e rfl, hstate.trans ?_⟩⟩
    have hundefine : (c.enter.environment.defineAll [(.variable x.name, (openParameter x c).1)]).undefineAll
        [(.variable x.name, (openParameter x c).1)] = c.enter.environment :=
      c.environment.undefine_define_enter _ _
    simp [Member.entry, hundefine]

/-- **What a local binding and the expression behind it do.** -/
theorem run_binding (span : Span) (x : Ident) (value body : Check TypedExpr) (c : Context) :
    within (fun c => ((), c.enter)) (fun _ c => c.leave) (fun _ => do
      let (t, value) ← boundValue x value
      let body ← body
      return binding span body.type ⟨.variable x.name, t⟩ value body) c =
    match boundValue x value c.enter with
    | (.error e, d) => (.error e, d.leave)
    | (.ok (t, value), d) =>
      match body d with
      | (.error e, d) => (.error e, d.leave)
      | (.ok body, d) => (.ok (binding span body.type ⟨.variable x.name, t⟩ value body), d.leave) := by
  unfold within
  simp only [run_bind]
  cases boundValue x value c.enter with
  | mk r d =>
    cases r with
    | error e => rfl
    | ok p =>
      simp only []
      cases body d with
      | mk r d => cases r <;> rfl

theorem binding_obeys (span : Span) (x : Ident) {body : Check TypedExpr} (hbody : body.Obeys D [] typeOnly)
    (hvalue : ∀ c, D.Inv c → Closes D c (boundValue x value c.enter).2 leave) :
    Obeys D [] typeOnly (within (fun c => ((), c.enter)) (fun _ c => c.leave) fun _ => do
      let (t, value) ← boundValue x value
      let body ← body
      return .binding span body.type ⟨.variable x.name, t⟩ value body) := by
  intro c hc _
  obtain ⟨hinv, hclose⟩ := hvalue c hc
  rw [run_binding]
  cases hrun : boundValue x value c.enter with
  | mk r d =>
    rw [hrun] at hinv hclose
    cases r with
    | error e =>
      obtain ⟨hclosed, houter, _⟩ := hclose d hinv (D.refl d)
      exact ⟨hclosed, houter, nofun⟩
    | ok p =>
      obtain ⟨hinner, hstep, hout⟩ := hbody d hinv (by simp)
      obtain ⟨hclosed, houter, hallowed⟩ := hclose _ hinner hstep
      simp only []
      cases hrun : body d with
      | mk r d' =>
        rw [hrun] at hclosed houter hallowed hout
        cases r with
        | error e => exact ⟨hclosed, houter, nofun⟩
        | ok b =>
          refine ⟨hclosed, houter, ?_⟩
          rintro _ ⟨⟩ t ht
          exact hallowed t (hout b rfl t ht)

/-! ## Restored environments -/

/-- The symbols in scope and the definitions are the same by the end. -/
def restoring : Discipline Context Ty where
  Inv _ := True
  Step c d := d.environment = c.environment ∧ d.definitions = c.definitions
  Out _ _ := True
  refl _ := ⟨rfl, rfl⟩
  trans h h' := ⟨h'.1.trans h.1, h'.2.trans h.2⟩
  mono _ _ := trivial

theorem typeOf_restores (c : Context) (l : Locator) : restoring.Step c (c.typeOf l).2 := by
  obtain ⟨_, hout, -⟩ := c.typeOf_spec l
  rw [hout]
  exact ⟨rfl, rfl⟩

/-- **The scope of a parameter is closed** by whatever comes of the body, and its variable is pinned by then. -/
theorem closeParameter_eq {x : Ident} (hd : restoring.Step (openParameter x c).2 d) :
    closeParameter (openParameter x c).1 d = { d with environment := c.environment } := by
  have henv : d.environment = (c.enter.environment.define (.variable x.name)
      (openParameter x c).1).pinAll [(openParameter x c).1] := hd.1
  unfold closeParameter
  rw [unpin_of_pinned mem_cons_self henv, erase_cons_head]
  rfl

theorem closeParameter_open (x : Ident) (c d : Context) (hd : restoring.Step (openParameter x c).2 d) :
    restoring.Step c (closeParameter (openParameter x c).1 d) := by
  rw [closeParameter_eq hd]
  exact ⟨rfl, hd.2⟩

/-- Leaving a scope gives back the scopes around it. -/
theorem leave_restores {inner : Context} {s : Scope}
    (hscopes : inner.environment = ⟨s, c.environment.scopes⟩ ∧ inner.definitions = c.definitions)
    (hd : restoring.Step inner d) : restoring.Step c d.leave := by
  refine ⟨?_, hd.2.trans hscopes.2⟩
  change d.environment.leave = c.environment
  rw [hd.1, hscopes.1]
  rfl

/-- Around what a binding leaves in its own scope are the scopes that were there before. -/
theorem boundValue_scopes (x : Ident) (htyped : restoring.Step (openParameter x c).2 (typeValue x value c).2.2) :
    ∃ s, (boundValue x value c.enter).2.environment = ⟨s, c.environment.scopes⟩ ∧
      (boundValue x value c.enter).2.definitions = c.definitions := by
  obtain ⟨journal, hok | ⟨_, hfailed⟩⟩ := boundValue_cases x value rfl htyped.1
  · exact hok ▸ ⟨_, rfl, htyped.2⟩
  · exact hfailed ▸ ⟨_, rfl, htyped.2⟩

theorem restoring_solving : Solving restoring where
  simple _ _ := trivial
  func _ _ _ _ _ := trivial
  union? _ _ _ _ _ := trivial
  expose _ _ _ _ := trivial
  note _ _ _ _ _ := ⟨trivial, rfl, rfl⟩
  lookup c l _ := ⟨trivial, typeOf_restores c l, fun _ _ => trivial⟩
  unify _ _ _ _ _ _ := ⟨trivial, rfl, rfl⟩
  apply _ _ _ _ _ _ := ⟨trivial, ⟨rfl, rfl⟩, fun _ _ => trivial⟩

theorem restoring_disciplined : Disciplined restoring where
  toSolving := restoring_solving
  parameter := by
    intro x body hbody
    refine parameter_obeys x hbody fun c _ => ⟨trivial, trivial, fun d _ hd => ?_⟩
    exact ⟨trivial, closeParameter_open x c d hd, fun _ _ => trivial⟩
  binding := by
    intro span x value body hvalue hbody
    refine binding_obeys span x hbody fun c _ => ⟨trivial, fun d _ hd => ?_⟩
    obtain ⟨s, hscopes⟩ := boundValue_scopes x
      (typeValue_obeys (x := x) (c := c) restoring_solving hvalue trivial trivial).2
    exact ⟨trivial, leave_restores hscopes hd, fun _ _ => trivial⟩

/-- **Typing an expression restores the environment**, whether it succeeds or fails. -/
theorem infer_restores (home : String) (e : Expr) (c : Context) : restoring.Step c (infer home e c).2 :=
  (restoring_disciplined.infer_obeys home e c trivial fun _ _ => trivial).2.1

theorem infer_environment {home : String} {x : Expr} {e : TypedExpr} (h : infer home x c = (.ok e, d)) :
    d.environment = c.environment := by
  have hrestores := (infer_restores home x c).1
  rwa [h] at hrestores

end Typing

end UnionTyping
