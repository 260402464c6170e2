import UnionTyping.Typing.Program
import UnionTyping.Proofs.Inference
import UnionTyping.Proofs.Names

/-!
# `Proofs.Isolation` — typing one declaration does not change another

A group of declarations, or an expression on its own, is a *job*. A job binds no variable that was handed
out before it began. So whatever has been typed before keeps its type, unless it is declared anew, and
whether or not the job succeeds (`declarations_are_isolated`). This holds in every context that comes from
checking sources, one after the other, in a new one (`Session`).

Between jobs there is one scope and nothing is pinned (`Settled`). A job starts with the number of variables
there are as the first of its own, and ends settled again (`checkGroup_isolates`, `checkExpr_isolates`).
-/

namespace UnionTyping

open List Context

/-! ## The only scope -/

namespace Scope

variable {s : Scope} {l k : Locator} {t : Ty}

theorem get?_define (h : k ≠ l) : (s.define l t).get? k = s.get? k := by
  have hkl : (k == l) = false := beq_eq_false_iff_ne.mpr h
  have hlookup : ∀ symbols, (addCandidate l t symbols).lookup k = symbols.lookup k := by
    intro symbols
    induction symbols with
    | nil => simp only [addCandidate, lookup_cons, lookup_nil, hkl]
    | cons e rest ih =>
      obtain ⟨m, ts⟩ := e
      unfold addCandidate
      split
      · rename_i hm
        simp only [lookup_cons, hm, hkl]
      · simp only [lookup_cons, ih]
  exact hlookup s.symbols

theorem get?_forget (h : k ≠ l) : (s.forget l).get? k = s.get? k := by
  have hkl : (k == l) = false := beq_eq_false_iff_ne.mpr h
  have hlookup : ∀ symbols : List (Locator × List Ty),
      (symbols.filter fun e => decide (e.1 ≠ l)).lookup k = symbols.lookup k := by
    intro symbols
    induction symbols with
    | nil => rfl
    | cons e rest ih =>
      obtain ⟨m, ts⟩ := e
      rw [filter_cons]
      split
      · simp only [lookup_cons, ih]
      · rename_i hm
        have hml : m = l := by simpa using hm
        simp only [lookup_cons, hml, hkl, ih]
  exact hlookup s.symbols

theorem get?_replace (h : k ≠ l) (ts : List Ty) :
    (s.symbols.map fun e => if e.1 = l then (l, ts) else e).lookup k = s.get? k := by
  have hkl : (k == l) = false := beq_eq_false_iff_ne.mpr h
  unfold get?
  induction s.symbols with
  | nil => rfl
  | cons e rest ih =>
    obtain ⟨m, us⟩ := e
    rw [map_cons]
    split
    · rename_i hm
      have hml : m = l := hm
      simp only [lookup_cons, hml, hkl, ih]
    · simp only [lookup_cons, ih]

/-- One scope comes from another by changes to some symbols; the candidates that are new have a property. -/
structure Changes (symbols : List Locator) (P : Ty → Prop) (s s' : Scope) : Prop where
  pinned : s'.pinned = s.pinned
  others : ∀ k, k ∉ symbols → s'.get? k = s.get? k
  types : ∀ e ∈ s'.symbols, ∀ t ∈ e.2, P t ∨ ∃ e' ∈ s.symbols, t ∈ e'.2

namespace Changes

variable {symbols : List Locator} {P : Ty → Prop} {s' : Scope}

theorem refl (s : Scope) : Changes symbols P s s :=
  ⟨rfl, fun _ _ => rfl, fun e he _ ht => Or.inr ⟨e, he, ht⟩⟩

theorem trans {s'' : Scope} (h : Changes symbols P s s') (h' : Changes symbols P s' s'') :
    Changes symbols P s s'' := by
  refine ⟨h'.pinned.trans h.pinned, fun k hk => (h'.others k hk).trans (h.others k hk), fun e he t ht => ?_⟩
  rcases h'.types e he t ht with hP | ⟨e', he', ht'⟩
  · exact Or.inl hP
  · exact h.types e' he' t ht'

theorem define (hl : l ∈ symbols) (ht : P t) : Changes symbols P s (s.define l t) := by
  refine ⟨rfl, fun k hk => get?_define (ne_of_mem_of_not_mem hl hk).symm, ?_⟩
  have htypes : ∀ entries, ∀ e ∈ addCandidate l t entries, ∀ u ∈ e.2, P u ∨ ∃ e' ∈ entries, u ∈ e'.2 := by
    intro entries
    induction entries with
    | nil =>
      intro e he u hu
      rw [mem_singleton.mp he] at hu
      exact Or.inl (mem_singleton.mp hu ▸ ht)
    | cons entry rest ih =>
      intro e he u hu
      unfold addCandidate at he
      split at he
      · rcases mem_cons.mp he with rfl | he
        · simp only [] at hu
          split at hu
          · exact Or.inr ⟨entry, mem_cons_self, hu⟩
          · rcases mem_append.mp hu with hu | hu
            · exact Or.inr ⟨entry, mem_cons_self, hu⟩
            · exact Or.inl (mem_singleton.mp hu ▸ ht)
        · exact Or.inr ⟨e, mem_cons_of_mem _ he, hu⟩
      · rcases mem_cons.mp he with rfl | he
        · exact Or.inr ⟨entry, mem_cons_self, hu⟩
        · rcases ih e he u hu with hP | ⟨e', he', hu'⟩
          · exact Or.inl hP
          · exact Or.inr ⟨e', mem_cons_of_mem _ he', hu'⟩
  exact htypes s.symbols

theorem forget (hl : l ∈ symbols) : Changes symbols P s (s.forget l) :=
  ⟨rfl, fun _ hk => get?_forget (ne_of_mem_of_not_mem hl hk).symm,
    fun e he _ ht => Or.inr ⟨e, mem_of_mem_filter he, ht⟩⟩

theorem undefine? (hl : l ∈ symbols) (h : s.undefine? l t = some s') : Changes symbols P s s' := by
  unfold Scope.undefine? at h
  split at h
  · cases h
  · rename_i ts hts
    split at h
    · split at h
      · injection h with h
        exact h ▸ .forget hl
      · cases h
        refine ⟨rfl, fun k hk => get?_replace (ne_of_mem_of_not_mem hl hk).symm _, fun e he u hu => Or.inr ?_⟩
        obtain ⟨e', he', rfl⟩ := mem_map.mp he
        split at hu
        · exact ⟨_, mem_of_lookup hts, mem_of_mem_erase hu⟩
        · exact ⟨e', he', hu⟩
    · cases h

end Changes
end Scope

namespace Environment

/-- There is one scope before and after, and it changes in some symbols. -/
structure Changes (symbols : List Locator) (P : Ty → Prop) (e e' : Environment) : Prop where
  before : e.outer = []
  after : e'.outer = []
  scope : e.innermost.Changes symbols P e'.innermost

namespace Changes

variable {symbols : List Locator} {P : Ty → Prop} {e e' : Environment} {l : Locator} {t : Ty}

theorem refl (he : e.outer = []) : Changes symbols P e e :=
  ⟨he, he, .refl _⟩

theorem trans {e'' : Environment} (h : Changes symbols P e e') (h' : Changes symbols P e' e'') :
    Changes symbols P e e'' :=
  ⟨h.before, h'.after, h.scope.trans h'.scope⟩

theorem imp {Q : Ty → Prop} (h : Changes symbols P e e') (hPQ : ∀ t, P t → Q t) : Changes symbols Q e e' := by
  refine ⟨h.before, h.after, h.scope.pinned, h.scope.others, fun entry hentry t ht => ?_⟩
  exact (h.scope.types entry hentry t ht).imp_left (hPQ t)

theorem define (he : e.outer = []) (hl : l ∈ symbols) (ht : P t) : Changes symbols P e (e.define l t) :=
  ⟨he, he, .define hl ht⟩

theorem forget (he : e.outer = []) (hl : l ∈ symbols) : Changes symbols P e (e.forget l) :=
  ⟨he, by simp [Environment.forget, he], .forget hl⟩

theorem undefine (he : e.outer = []) (hl : l ∈ symbols) : Changes symbols P e (e.undefine l t) := by
  unfold Environment.undefine Environment.undefine? changeInnermost? scopes
  rw [he, changeFirst?]
  cases h : e.innermost.undefine? l t with
  | none => exact .refl he
  | some s => exact ⟨he, rfl, .undefine? hl h⟩

/-- Changes in a row. -/
theorem foldl {α : Type} {step : Environment → α → Environment} {xs : List α}
    (hstep : ∀ x ∈ xs, ∀ e, e.outer = [] → Changes symbols P e (step e x)) (he : e.outer = []) :
    Changes symbols P e (xs.foldl step e) := by
  induction xs generalizing e with
  | nil => exact .refl he
  | cons x xs ih =>
    obtain ⟨hx, hxs⟩ := forall_mem_cons.mp hstep
    have hfirst := hx e he
    exact hfirst.trans (ih hxs hfirst.after)

/-- **Other symbols keep their candidates.** -/
theorem candidates (h : Changes symbols P e e') (hl : l ∉ symbols) : e'.candidates l = e.candidates l := by
  have hget := h.scope.others l hl
  cases l with
  | «variable» x => simp only [Environment.candidates, scopes, h.before, h.after, List.findSome?, hget]
  | declaration home x =>
    simp only [Environment.candidates, scopes, h.before, h.after, reverse_singleton, filterMap_cons, hget]

end Changes
end Environment

namespace Typing

open Check

/-! ## Between jobs -/

variable {n : Nat}

/-- **The state between jobs**: bindings are owned and without cycles, no type is defined, there is one scope,
    nothing is pinned in it, and its symbols are of owned types. -/
structure Settled (c : Context) : Prop where
  arena : c.store.arena.WellFormed
  definitions : c.definitions.entries = []
  outer : c.environment.outer = []
  pinned : c.environment.innermost.pinned = []
  symbols : ∀ e ∈ c.environment.innermost.symbols, ∀ t ∈ e.2, c.store.arena.Owns t

/-- **What a job leaves**: a settled context, in which only variables are bound that were handed out since,
    and symbols other than the job's own have the candidates they had. -/
structure Isolates (symbols : List Locator) (c d : Context) : Prop where
  settled : Settled d
  advances : c.store.arena.Advances c.store.arena.size d.store.arena
  candidates : ∀ l, l ∉ symbols → d.environment.candidates l = c.environment.candidates l

variable {c d : Context} {symbols : List Locator}

/-- A job begins: its own variables are those that there are none of yet. -/
theorem Settled.scoped (hc : Settled c) : Scoped c.store.arena.size c := by
  have hdefs : ∀ F, c.definitions.In F := by
    intro F _ e he
    rw [hc.definitions] at he
    cases he
  have hscopes : ∀ s ∈ c.environment.scopes, s = c.environment.innermost := by
    intro s hs
    rw [Environment.scopes, hc.outer] at hs
    exact mem_singleton.mp hs
  refine ⟨⟨Nat.le_refl _, fun v t hv ht => ?_, hdefs _⟩,
    ⟨Nat.zero_le _, Regime.closed_owned_zero.mpr hc.arena.owned, hdefs _⟩, fun s hs => ?_, fun s hs => ?_⟩
  · have hlt := Arena.lt_size_of_binding? ht
    exact absurd hv.2 (Nat.not_le.mpr hlt)
  · rw [hscopes s hs]
    exact hc.symbols
  · rw [hscopes s hs, hc.pinned]
    simp

/-- A job ends: its variables are kept to, and its symbols are all that is different in scope. -/
theorem Settled.isolates (hc : Settled c) {inner : Context} (hn : n = c.store.arena.size)
    (hinner : Scoped n inner) (hadvances : c.store.arena.Advances n inner.store.arena)
    (harena : d.store.arena = inner.store.arena) (hdefs : d.definitions = c.definitions)
    (hchanges : c.environment.Changes symbols inner.store.arena.Owns d.environment) : Isolates symbols c d := by
  subst hn
  refine ⟨⟨⟨?_, ?_⟩, ?_, hchanges.after, ?_, fun e he t ht => ?_⟩, ?_, fun l hl => hchanges.candidates hl⟩
  · rw [harena]
    exact Regime.closed_owned_zero.mp hinner.whole.closed
  · rw [harena]
    exact hadvances.acyclic hc.arena.acyclic
  · rw [hdefs, hc.definitions]
  · rw [hchanges.scope.pinned, hc.pinned]
  · rw [harena]
    rcases hchanges.scope.types e he t ht with howned | ⟨e', he', ht'⟩
    · exact howned
    · exact (hc.symbols e' he' t ht').mono hadvances.grows
  · rw [harena]
    exact hadvances

/-- The candidates of a settled context are those of its only scope. -/
theorem Settled.mem_candidates (hc : Settled c) {l : Locator} {t : Ty} (ht : t ∈ c.environment.candidates l) :
    ∃ e ∈ c.environment.innermost.symbols, t ∈ e.2 := by
  obtain ⟨s, hs, e, he, ht⟩ := Environment.mem_candidates ht
  rw [Environment.scopes, hc.outer] at hs
  exact ⟨e, mem_singleton.mp hs ▸ he, ht⟩

theorem Settled.owns_candidates (hc : Settled c) {l : Locator} {t : Ty} (ht : t ∈ c.environment.candidates l) :
    c.store.arena.Owns t := by
  obtain ⟨e, he, ht⟩ := hc.mem_candidates ht
  exact hc.symbols e he t ht

/-- What is bound before a job exposes as before. -/
theorem Settled.expose_eq (hc : Settled c)
    (h : c.store.arena.Advances c.store.arena.size d.store.arena) {t : Ty} (ht : c.store.arena.Owns t) :
    d.expose t = c.expose t := by
  refine Arena.expose_congr (S := fun id => id < c.store.arena.size) hc.arena.acyclic
    (h.acyclic hc.arena.acyclic) (fun id hid => h.binding?_old hid) ?_ fun v hv =>
      Arena.lt_size_of_name? (ht v hv)
  rintro i j _ ⟨u, hu, w, hw, rfl⟩
  exact Arena.lt_size_of_name? (hc.arena.owned i u hu w hw)

namespace Isolates

theorem refl (hc : Settled c) : Isolates symbols c c :=
  ⟨hc, .refl _, fun _ _ => rfl⟩

theorem trans {e : Context} (h : Isolates symbols c d) (h' : Isolates symbols d e) : Isolates symbols c e :=
  ⟨h'.settled, h.advances.trans (h'.advances.mono h.advances.grows.size_le),
    fun l hl => (h'.candidates l hl).trans (h.candidates l hl)⟩

theorem weaken {symbols' : List Locator} (h : Isolates symbols c d) (hsub : symbols ⊆ symbols') :
    Isolates symbols' c d :=
  ⟨h.settled, h.advances, fun l hl => h.candidates l fun hmem => hl (hsub hmem)⟩

end Isolates

/-! ## Groups of declarations -/

variable {home : String} {decls : List Decl}

/-- A symbol with a fresh pinned variable, in the scope at hand. -/
theorem Scoped.defineFresh (hc : Scoped n c) (l : Locator) :
    Scoped n ((c.fresh.2.define l c.fresh.1).pin c.fresh.1) ∧
      (owning n).Out ((c.fresh.2.define l c.fresh.1).pin c.fresh.1) c.fresh.1 ∧
      c.store.arena.Advances n c.fresh.2.store.arena := by
  obtain ⟨hown, hin⟩ := fresh_keeps hc.own
  have hwhole := (fresh_keeps hc.whole).1
  refine ⟨⟨hown.holds hc.own, hwhole.holds hc.whole, fun s hs => ?_, fun s hs => ?_⟩, hin, .of_keeps hown⟩
  · have hold : ∀ s ∈ c.environment.scopes, ∀ e ∈ s.symbols, ∀ t ∈ e.2, c.fresh.2.store.arena.Owns t :=
      fun s hs e he t ht => (hc.symbols s hs e he t ht).mono hown.grows
    rcases mem_cons.mp hs with rfl | hs
    · intro e he t ht
      have hdefine : c.environment.innermost.Changes [l] c.fresh.2.store.arena.Owns
          (c.environment.innermost.define l c.fresh.1) :=
        .define (mem_singleton.mpr rfl) (Regime.in_owned.mp hin).1
      rcases hdefine.types e he t ht with howned | ⟨e', he', ht'⟩
      · exact howned
      · exact hold _ mem_cons_self e' he' t ht'
    · exact hold s (mem_cons_of_mem _ hs)
  · rcases mem_cons.mp hs with rfl | hs
    · intro t ht
      rcases mem_cons.mp ht with rfl | ht
      · exact hin
      · exact hown.in (hc.pinned _ mem_cons_self t ht)
    · exact fun t ht => hown.in (hc.pinned s (mem_cons_of_mem _ hs) t ht)

/-- A group is opened with own variables. -/
theorem Scoped.openGroup {β : Type} (group : List (Locator × β)) (hc : Scoped n c) :
    Scoped n (openGroup group c).2 ∧ c.store.arena.Advances n (openGroup group c).2.store.arena ∧
      ∀ m ∈ (openGroup group c).1, (owning n).Out (openGroup group c).2 m.type := by
  induction group generalizing c with
  | nil => exact ⟨hc, .refl _, fun m hm => absurd hm not_mem_nil⟩
  | cons g rest ih =>
    obtain ⟨hfirst, hvar, hadvances⟩ := hc.defineFresh g.1
    obtain ⟨hrest, hadvances', hmembers⟩ := ih hfirst
    refine ⟨hrest, hadvances.trans hadvances', fun m hm => ?_⟩
    rcases mem_cons.mp hm with rfl | hm
    · exact hvar.mono ((Regime.owned n).grow hadvances'.grows)
    · exact hmembers m hm

/-- The members of a group that is opened are those of the group. -/
theorem mem_openGroup {β : Type} {group : List (Locator × β)} {m : Member β}
    (h : m ∈ (openGroup group c).1) : (m.symbol, m.body) ∈ group := by
  induction group generalizing c with
  | nil => cases h
  | cons g rest ih =>
    rcases mem_cons.mp h with rfl | h
    · exact mem_cons_self
    · exact mem_cons_of_mem _ (ih h)

/-- **What a group of declarations leaves**, if it is opened and its bodies are typed within a discipline: the
    state once the bodies are typed, with the symbols of the group as the only change in scope. -/
theorem declareGroup_obeys {D : Discipline Context Ty} (hD : Solving D)
    (hrestores : ∀ {c d}, D.Step c d → restoring.Step c d) {ε σ : Type} (wrap : InferenceError → ε)
    (group : List (Locator × Body ε σ)) (own : σ) (houter : c.environment.outer = [])
    (hopened : D.Inv (openGroup group c).2)
    (hmembers : ∀ m ∈ (openGroup group c).1, D.Out (openGroup group c).2 m.type)
    (hbodies : ∀ g ∈ group, ∀ own d, D.Inv d → D.Inv (g.2 own d).2.2 ∧ D.Step d (g.2 own d).2.2 ∧
      ∀ t, (g.2 own d).1 = .ok t → D.Out (g.2 own d).2.2 t) :
    ∃ typed, D.Inv typed ∧ D.Step (openGroup group c).2 typed ∧
      (c.declareGroup wrap group own).2.2.store.arena = typed.store.arena ∧
      (c.declareGroup wrap group own).2.2.definitions = typed.definitions ∧
      c.environment.Changes (group.map Prod.fst) (D.Out typed) (c.declareGroup wrap group own).2.2.environment := by
  have hmem : ∀ m ∈ (openGroup group c).1, (m.symbol, m.body) ∈ group := fun m hm => mem_openGroup hm
  cases hopen : openGroup group c with
  | mk members opened =>
    rw [hopen] at hopened hmembers hmem
    obtain ⟨htyped, hstep⟩ := typeBodies_obeys hD wrap
      (fun m hm own d hd => hbodies _ (hmem m hm) own d hd) own opened hopened hmembers
    cases hrun : typeBodies wrap members own opened with
    | mk outcome rest =>
      obtain ⟨own', d⟩ := rest
      rw [hrun] at htyped hstep
      -- The symbols are the group's, and their types are allowed.
      have hentry : ∀ s ∈ members.map Member.entry, s.1 ∈ group.map Prod.fst ∧ D.Out d s.2 := by
        intro s hs
        obtain ⟨m, hm, rfl⟩ := mem_map.mp hs
        exact ⟨mem_map.mpr ⟨_, hmem m hm, rfl⟩, D.mono hstep (hmembers m hm)⟩
      have hdefine : c.environment.Changes (group.map Prod.fst) (D.Out d)
          (c.environment.defineAll (members.map Member.entry)) :=
        .foldl (fun s hs e he => .define he (hentry s hs).1 (hentry s hs).2) houter
      have hundefine : c.environment.Changes (group.map Prod.fst) (D.Out d)
          ((c.environment.defineAll (members.map Member.entry)).undefineAll (members.map Member.entry)) :=
        hdefine.trans (.foldl (fun s hs e he => .undefine he (hentry s hs).1) hdefine.after)
      obtain ⟨journal, -, ⟨-, hok⟩ | ⟨e, herror⟩⟩ := declareGroup_cases hopen hrun (hrestores hstep).1
      · rw [hok]
        exact ⟨d, htyped, hstep, rfl, rfl, hdefine⟩
      · rw [herror]
        exact ⟨d, htyped, hstep, rfl, rfl, hundefine⟩

/-- **A group of declarations is a job**, whatever its bodies are as long as they keep to own variables. -/
theorem Settled.declareGroup (hc : Settled c) {ε σ : Type} (wrap : InferenceError → ε)
    (group : List (Locator × Body ε σ)) (own : σ)
    (hbodies : ∀ g ∈ group, ∀ own d, Scoped c.store.arena.size d → Scoped c.store.arena.size (g.2 own d).2.2 ∧
      (owning c.store.arena.size).Step d (g.2 own d).2.2 ∧
      ∀ t, (g.2 own d).1 = .ok t → (owning c.store.arena.size).Out (g.2 own d).2.2 t) :
    Isolates (group.map Prod.fst) c (c.declareGroup wrap group own).2.2 := by
  obtain ⟨hopened, hadvances, hmembers⟩ := hc.scoped.openGroup group
  obtain ⟨d, htyped, hstep, harena, hdefs, hchanges⟩ := declareGroup_obeys
    (owning_solving c.store.arena.size) (fun h => h.1) wrap group own hc.outer hopened hmembers hbodies
  have hsame : d.definitions = c.definitions := hstep.1.2.trans (openGroup_definitions group c)
  exact hc.isolates rfl htyped (hadvances.trans hstep.2) harena (hdefs.trans hsame)
    (hchanges.imp fun t ht => (Regime.in_owned.mp ht).1)

theorem forgetAll_state (symbols : List Locator) (c : Context) : symbols.foldl forget c =
    { c with environment := symbols.foldl Environment.forget c.environment } := by
  induction symbols generalizing c with
  | nil => rfl
  | cons l symbols ih => exact ih (c.forget l)

/-- Symbols are forgotten. -/
theorem Settled.forgetAll (hc : Settled c) : Isolates symbols c (symbols.foldl forget c) := by
  rw [forgetAll_state]
  exact hc.isolates rfl hc.scoped (.refl _) rfl rfl (.foldl (fun l hl e he => .forget he hl) hc.outer)

/-- **What a group of a module goes through**: its symbols are forgotten, it is declared, and if it cannot be
    handed over its symbols are forgotten again. What both steps keep is kept. -/
theorem checkGroup_keeps {P : Context → Prop} (hforget : ∀ d, P d → P ((decls.map (declared home)).foldl forget d))
    (hdeclare : ∀ d, P d → P (d.declareGroup InferenceError.diagnostic
      (decls.map fun d => (declared home d, asBody (infer home d.body))) []).2.2)
    (hc : P c) : P (checkGroup home decls c).2 := by
  have hgroup := hdeclare _ (hforget c hc)
  unfold checkGroup
  simp only []
  cases hrun : declareGroup InferenceError.diagnostic
      (decls.map fun d => (declared home d, asBody (infer home d.body))) []
      ((decls.map (declared home)).foldl forget c) with
  | mk outcome rest =>
    obtain ⟨typed, d⟩ := rest
    rw [hrun] at hgroup
    cases outcome with
    | error e => exact hgroup
    | ok types =>
      simp only []
      split
      · exact hgroup
      · exact hforget d hgroup

/-- **A group of a module is a job.** -/
theorem checkGroup_isolates (hc : Settled c) (home : String) (decls : List Decl) :
    Isolates (decls.map (declared home)) c (checkGroup home decls c).2 := by
  refine checkGroup_keeps (fun d hd => hd.trans hd.settled.forgetAll) (fun d hd => ?_) (.refl hc)
  have hgroup := hd.settled.declareGroup InferenceError.diagnostic
    (decls.map fun d => (declared home d, asBody (infer home d.body))) [] (by
      intro g hg own d hd
      obtain ⟨decl, _, rfl⟩ := mem_map.mp hg
      exact asBody_obeys ((owning_disciplined _).infer_obeys home decl.body) own d hd)
  rw [map_map] at hgroup
  exact hd.trans hgroup

theorem Settled.checkGroup (hc : Settled c) {result : Except Diagnostic (List TypedDecl)}
    (h : checkGroup home decls c = (result, d)) : Isolates (decls.map (declared home)) c d := by
  have hisolates := checkGroup_isolates hc home decls
  rwa [h] at hisolates

/-! ## Expressions -/

/-- What becomes of an expression on its own: it fails in typing or after it, or it becomes the latest. -/
theorem checkExpr_cases (e : Expr) (c : Context) :
    (∃ d, checkExpr e c = (.error d, (infer c.home e c).2)) ∨
      ∃ body typed, (infer c.home e c).1 = .ok body ∧ checkExpr e c = (.ok typed,
        let after := (infer c.home e c).2
        (after.forget (.declaration c.home latest)).define (.declaration c.home latest) (after.expose body.type)) := by
  cases hrun : infer c.home e c with
  | mk r after =>
    cases r with
    | error d => exact Or.inl ⟨d, by simp only [checkExpr, run_bind, run_get, hrun]⟩
    | ok body =>
      cases hhand : body.handOff after.store.arena (after.expose body.type) with
      | error d =>
        refine Or.inl ⟨d, ?_⟩
        simp only [checkExpr, run_bind, run_get, run_lift, hrun, hhand]
      | ok b =>
        refine Or.inr ⟨body, ⟨.declaration c.home latest, after.expose body.type, b, e.span⟩, rfl, ?_⟩
        simp only [checkExpr, run_bind, run_get, run_lift, run_set, run_pure, hrun, hhand]

/-- **To type an expression is a job** that declares nothing. -/
theorem infer_isolates (hc : Settled c) (home : String) (e : Expr) : Isolates [] c (infer home e c).2 := by
  obtain ⟨hscoped, hstep, -⟩ := (owning_disciplined c.store.arena.size).infer_obeys home e c hc.scoped (by simp)
  refine hc.isolates rfl hscoped hstep.2 rfl hstep.1.2 ?_
  rw [hstep.1.1]
  exact .refl hc.outer

/-- **An expression on its own is a job**; it declares nothing if it fails. -/
theorem checkExpr_isolates (hc : Settled c) (e : Expr) :
    Isolates (if (checkExpr e c).1.isOk then [.declaration c.home latest] else []) c (checkExpr e c).2 := by
  obtain ⟨hscoped, hstep, hout⟩ :=
    (owning_disciplined c.store.arena.size).infer_obeys c.home e c hc.scoped (by simp)
  have hsame : c.environment.Changes [.declaration c.home latest] (infer c.home e c).2.store.arena.Owns
      (infer c.home e c).2.environment := by
    rw [hstep.1.1]
    exact .refl hc.outer
  rcases checkExpr_cases e c with ⟨d, hfailed⟩ | ⟨body, typed, hbody, hok⟩
  · rw [hfailed]
    exact infer_isolates hc c.home e
  · have ht := Regime.in_owned.mp (hscoped.own.closed.expose (hout body hbody _ mem_cons_self))
    have hforget := hsame.trans (.forget hsame.after (mem_singleton.mpr rfl))
    rw [hok]
    exact hc.isolates rfl hscoped hstep.2 rfl hstep.1.2
      (hforget.trans (.define hforget.after (mem_singleton.mpr rfl) ht.1))

/-! ## Jobs in a row -/

variable {job : Job}

/-- **A job**: the symbols that it declares anew, and the contexts before and after it. -/
structure Job where
  symbols : List Locator
  before : Context
  after : Context

/-- Each job begins where the one before it has ended. -/
def Job.Chain : Context → List Job → Context → Prop
  | c, [], d => d = c
  | c, job :: rest, d => job.before = c ∧ Chain job.after rest d

/-- The groups that are typed, up to the first that fails. -/
def groupJobs (home : String) (decls : List Decl) : List (List Nat) → Context → List Job
  | [], _ => []
  | group :: rest, c =>
      let members := (group.filterMap fun i => decls[i]?.map fun d => (i, d)).map Prod.snd
      ⟨members.map (declared home), c, (checkGroup home members c).2⟩ ::
        match checkGroup home members c with
        | (.ok _, after) => groupJobs home decls rest after
        | (.error _, _) => []

/-- What is given to be checked. -/
inductive Input where
  | program (p : Program)
  | expression (e : Expr)

namespace Input

/-- It was read from a text. -/
def Parsed : Input → Prop
  | .program p => ∃ source home text, parseProgram source home text = .ok p
  | .expression e => ∃ source text, parseExpr source text = .ok e

/-- The context in which the first job begins: a module is loaded at once. -/
def load : Input → Context → Context
  | .program p, c => c.addModule p.home
  | .expression _, c => c

/-- The context once the input is checked, successfully or not. -/
def check : Input → Context → Context
  | .program p, c => (checkProgram p c).2
  | .expression e, c => (checkExpr e c).2

/-- **The jobs of checking an input**: one for each group of a module that is typed, and one for an
    expression. -/
def jobs : Input → Context → List Job
  | .program p, c =>
      match duplicate? [] p.decls with
      | some _ => []
      | none => groupJobs p.home p.decls (dependencies p.decls).groups (c.addModule p.home)
  | .expression e, c =>
      [⟨if (checkExpr e c).1.isOk then [.declaration c.home latest] else [], c, (checkExpr e c).2⟩]

end Input

/-- **The contexts that come from checking sources** in a new one, one after the other. -/
inductive Checked : Context → Prop where
  | new (home : String) (tracing : Bool) : Checked (.new home tracing)
  | check {c : Context} {input : Input} : Checked c → input.Parsed → Checked (input.check c)

/-- **Jobs in a row**: if each of them is isolated from where it begins, then all are, and together they are
    as good as one job for all their symbols. -/
theorem Job.Chain.isolates {jobs : List Job} (hc : Settled c) (h : Job.Chain c jobs d)
    (hjobs : ∀ job ∈ jobs, Settled job.before → Isolates job.symbols job.before job.after) :
    (∀ job ∈ jobs, Isolates job.symbols job.before job.after) ∧ Isolates (jobs.flatMap Job.symbols) c d := by
  induction jobs generalizing c with
  | nil =>
    rw [show d = c from h]
    exact ⟨by simp, .refl hc⟩
  | cons job rest ih =>
    obtain ⟨rfl, hrest⟩ := h
    obtain ⟨hjob, hjobs⟩ := forall_mem_cons.mp hjobs
    have hfirst := hjob hc
    obtain ⟨heach, hall⟩ := ih hfirst.settled hrest hjobs
    refine ⟨forall_mem_cons.mpr ⟨hfirst, heach⟩, ?_⟩
    exact (hfirst.weaken (by simp)).trans (hall.weaken (by simp))

theorem groupJobs_chain (home : String) (decls : List Decl) (groups : List (List Nat)) (c : Context) :
    Job.Chain c (groupJobs home decls groups c) (checkGroups home decls groups c).2 := by
  induction groups generalizing c with
  | nil => rfl
  | cons group rest ih =>
    refine ⟨rfl, ?_⟩
    simp only [checkGroups, run_bind]
    cases hrun : checkGroup home ((group.filterMap fun i => decls[i]?.map fun d => (i, d)).map Prod.snd) c with
    | mk r after =>
      cases r with
      | error e => rfl
      | ok typed =>
        simp only []
        have hrest := ih after
        cases hmore : checkGroups home decls rest after with
        | mk r d =>
          rw [hmore] at hrest
          cases r <;> exact hrest

theorem mem_groupJobs {groups : List (List Nat)} (h : job ∈ groupJobs home decls groups c) :
    ∃ members, members ⊆ decls ∧
      job.symbols = members.map (declared home) ∧ job.after = (checkGroup home members job.before).2 := by
  induction groups generalizing c with
  | nil => cases h
  | cons group rest ih =>
    rcases mem_cons.mp h with rfl | h
    · refine ⟨_, fun d hd => ?_, rfl, rfl⟩
      obtain ⟨⟨i, d'⟩, hmem, rfl⟩ := mem_map.mp hd
      obtain ⟨j, _, hj⟩ := mem_filterMap.mp hmem
      obtain ⟨d'', hget, heq⟩ := Option.map_eq_some_iff.mp hj
      cases heq
      exact mem_of_getElem? hget
    · split at h
      · exact ih h
      · cases h

namespace Input

/-- Checking an input is to do its jobs. -/
theorem jobs_chain (input : Input) (c : Context) : Job.Chain (input.load c) (input.jobs c) (input.check c) := by
  cases input with
  | expression e => exact ⟨rfl, rfl⟩
  | program p =>
    simp only [load, jobs, check, checkProgram, run_bind, run_modify]
    cases duplicate? [] p.decls with
    | some d => rfl
    | none =>
      have hchain := groupJobs_chain p.home p.decls (dependencies p.decls).groups (c.addModule p.home)
      simp only [run_bind]
      cases hrun : checkGroups p.home p.decls (dependencies p.decls).groups (c.addModule p.home) with
      | mk r d =>
        rw [hrun] at hchain
        cases r <;> exact hchain

/-- **Each job is isolated.** -/
theorem jobs_isolate {input : Input} (h : job ∈ input.jobs c) (hc : Settled job.before) :
    Isolates job.symbols job.before job.after := by
  cases input with
  | expression e =>
    rw [mem_singleton.mp h] at hc ⊢
    exact checkExpr_isolates hc e
  | program p =>
    simp only [jobs] at h
    split at h
    · cases h
    · obtain ⟨members, _, hsymbols, hafter⟩ := mem_groupJobs h
      rw [hsymbols, hafter]
      exact checkGroup_isolates hc p.home members

/-- Whatever is declared by an input that was read is called by a name. -/
theorem isName_of_jobs {input : Input} (hparsed : input.Parsed) (h : job ∈ input.jobs c) {l : Locator}
    (hl : l ∈ job.symbols) : Grammar.isName l.name = true := by
  cases input with
  | expression e =>
    rw [mem_singleton.mp h] at hl
    simp only [] at hl
    split at hl
    · rw [mem_singleton.mp hl]
      exact (by decide +kernel : Grammar.isName latest = true)
    · cases hl
  | program p =>
    obtain ⟨source, home, text, hp⟩ := hparsed
    simp only [jobs] at h
    split at h
    · cases h
    · obtain ⟨members, hsub, hsymbols, _⟩ := mem_groupJobs h
      rw [hsymbols] at hl
      obtain ⟨d, hd, rfl⟩ := mem_map.mp hl
      exact Grammar.isName_of_parseProgram hp d (hsub hd)

theorem load_state (input : Input) (c : Context) :
    (input.load c).store = c.store ∧ (input.load c).environment = c.environment ∧
      (input.load c).definitions = c.definitions := by
  cases input with
  | expression e => exact ⟨rfl, rfl, rfl⟩
  | program p =>
    simp only [load, addModule]
    split <;> exact ⟨rfl, rfl, rfl⟩

end Input

theorem Settled.load (hc : Settled c) (input : Input) : Settled (input.load c) := by
  obtain ⟨hstore, henv, hdefs⟩ := input.load_state c
  refine ⟨?_, ?_, ?_, ?_, ?_⟩
  · exact hstore ▸ hc.arena
  · exact hdefs ▸ hc.definitions
  · exact henv ▸ hc.outer
  · exact henv ▸ hc.pinned
  · rw [henv, hstore]
    exact hc.symbols

namespace Input

/-- **Checking an input is isolated**, job by job and as a whole. -/
theorem check_isolates (input : Input) (hc : Settled c) :
    (∀ job ∈ input.jobs c, Isolates job.symbols job.before job.after) ∧
      Isolates ((input.jobs c).flatMap Job.symbols) c (input.check c) := by
  obtain ⟨hstore, henv, -⟩ := input.load_state c
  obtain ⟨heach, hall⟩ :=
    (input.jobs_chain c).isolates (hc.load input) fun job hjob hbefore => jobs_isolate hjob hbefore
  refine ⟨heach, hall.settled, hstore ▸ hall.advances, fun l hl => ?_⟩
  rw [hall.candidates l hl, henv]

end Input

/-! ## Contexts that come from checking -/

/-- A new context's symbols and variables are the same for every home module. -/
theorem new_state (home : String) (tracing : Bool) :
    (new home tracing).environment = (new "" false).environment ∧
      (new home tracing).store.arena = (new "" false).store.arena :=
  ⟨rfl, rfl⟩

theorem new_settled (home : String) (tracing : Bool) : Settled (.new home tracing) := by
  obtain ⟨henv, harena⟩ := new_state home tracing
  refine ⟨(new_wellFormed home tracing).arena, rfl, rfl, rfl, ?_⟩
  rw [henv, harena]
  decide +kernel

/-- The operators are not called by names. -/
theorem isName_operator {tracing : Bool} {l : Locator}
    (h : (new home tracing).environment.isDefined l = true) : Grammar.isName l.name = false := by
  have hsymbols : ∀ e ∈ (new "" false).environment.innermost.symbols,
      Grammar.isName e.1.name = false := by decide +kernel
  have houter : (new "" false).environment.outer = [] := by decide +kernel
  rw [(new_state home tracing).1, Environment.isDefined, Environment.scopes, houter] at h
  obtain ⟨s, hs, hget⟩ := any_eq_true.mp h
  rw [mem_singleton.mp hs] at hget
  obtain ⟨ts, hts⟩ := Option.isSome_iff_exists.mp hget
  exact hsymbols (l, ts) (mem_of_lookup hts)

/-- **Every context that comes from checking is settled**, and the variables of the operators are unbound. -/
theorem Checked.settled (h : Checked c) : Settled c ∧ 2 ≤ c.store.arena.size ∧
    ∀ id < 2, c.store.arena.binding? id = none := by
  induction h with
  | new home tracing =>
    exact ⟨new_settled home tracing, Nat.le_refl 2, fun id _ => binding?_new home tracing id⟩
  | @check c input _ _ ih =>
    obtain ⟨hc, hsize, hfree⟩ := ih
    have hall := (input.check_isolates hc).2
    refine ⟨hall.settled, Nat.le_trans hsize hall.advances.grows.size_le, fun id hid => ?_⟩
    rw [hall.advances.binding?_old (Nat.lt_of_lt_of_le hid hsize), hfree id hid]

/-! ## Isolation -/

/-- **Declarations are isolated.** Let an input that was read be checked in a context that comes from
    checking others. It is checked job by job, and a job binds no variable that was handed out before it
    began. So a symbol that none of the jobs declares anew keeps its candidates, with the types they stand
    for, whether or not checking succeeds. The operators are among these symbols, and the two variables that
    they have stay unbound. -/
theorem declarations_are_isolated {c : Context} (hc : Checked c) {input : Input} (hinput : input.Parsed) :
    Job.Chain (input.load c) (input.jobs c) (input.check c) ∧
    (∀ job ∈ input.jobs c, ∀ id, job.before.store.arena.binding? id = none →
      (job.after.store.arena.binding? id).isSome → job.before.store.arena.size ≤ id) ∧
    (∀ l, (∀ job ∈ input.jobs c, l ∉ job.symbols) ∨
        (∃ home tracing, (Context.new home tracing).environment.isDefined l = true) →
      (input.check c).environment.candidates l = c.environment.candidates l ∧
      ∀ t ∈ c.environment.candidates l, (input.check c).expose t = c.expose t) ∧
    (input.check c).store.arena.binding? 0 = none ∧ (input.check c).store.arena.binding? 1 = none := by
  have hsettled := hc.settled.1
  obtain ⟨heach, hall⟩ := input.check_isolates hsettled
  have hafter := (Checked.check hc hinput).settled.2.2
  refine ⟨input.jobs_chain c, fun job hjob id hfree hbound => (heach job hjob).advances.own id hfree hbound,
    fun l hl => ?_, hafter 0 (by omega), hafter 1 (by omega)⟩
  have hother : l ∉ (input.jobs c).flatMap Job.symbols := by
    intro hmem
    obtain ⟨job, hjob, hmem⟩ := List.mem_flatMap.mp hmem
    rcases hl with hl | ⟨home, tracing, hoperator⟩
    · exact hl job hjob hmem
    · -- An operator is not called by a name, and what is declared is.
      have hname := Input.isName_of_jobs hinput hjob hmem
      rw [isName_operator hoperator] at hname
      cases hname
  exact ⟨hall.candidates l hother, fun t ht => hsettled.expose_eq hall.advances (hsettled.owns_candidates ht)⟩

/-- After `id = x -> x`, the module with `f = y -> y == id y` and `g = 1 2` is checked. The first of its two
    jobs succeeds and binds variables, the second fails; `id` and `==` are what they were. -/
theorem declarations_are_isolated_failing :
    let earlier := Input.program ⟨"main", [⟨⟨"id", ⟨0, 0, 2⟩⟩,
      .lambda ⟨0, 5, 11⟩ ⟨"x", ⟨0, 5, 6⟩⟩ (.name ⟨0, 10, 11⟩ ⟨none, "x"⟩), ⟨0, 0, 11⟩⟩]⟩
    let input := Input.program ⟨"main", [⟨⟨"f", ⟨1, 0, 1⟩⟩,
      .lambda ⟨1, 4, 18⟩ ⟨"y", ⟨1, 4, 5⟩⟩ (.binary ⟨1, 9, 18⟩ .eq (.name ⟨1, 9, 10⟩ ⟨none, "y"⟩)
        (.apply ⟨1, 14, 18⟩ (.name ⟨1, 14, 16⟩ ⟨none, "id"⟩) (.name ⟨1, 17, 18⟩ ⟨none, "y"⟩))),
      ⟨1, 0, 18⟩⟩, ⟨⟨"g", ⟨1, 19, 20⟩⟩,
      .apply ⟨1, 23, 26⟩ (.literal ⟨1, 23, 24⟩ (.integer 1)) (.literal ⟨1, 25, 26⟩ (.integer 2)),
      ⟨1, 19, 26⟩⟩]⟩
    let c := earlier.check (.new "main" false)
    (input.jobs c).length = 2 ∧ c.store.arena.bindings.length < (input.check c).store.arena.bindings.length ∧
      (input.check c).environment.isDefined (.declaration "main" "f") = true ∧
      (input.check c).environment.isDefined (.declaration "main" "g") = false ∧
      ∀ l ∈ [.declaration "main" "id", Builtin.locator "=="],
        (input.check c).environment.candidates l = c.environment.candidates l ∧
        ∀ t ∈ c.environment.candidates l, (input.check c).expose t = c.expose t := by
  intro earlier input c
  have hearlier : earlier.Parsed := ⟨0, "main", "id = x -> x", by decide +kernel⟩
  have hinput : input.Parsed := ⟨1, "main", "f = y -> y == id y\ng = 1 2", by decide +kernel⟩
  have hc : Checked c := .check (.new "main" false) hearlier
  have hid : ∀ job ∈ input.jobs c, Locator.declaration "main" "id" ∉ job.symbols := by decide +kernel
  have hisolated := (declarations_are_isolated hc hinput).2.2.1
  refine ⟨by decide +kernel, by decide +kernel, by decide +kernel, by decide +kernel, fun l hl => ?_⟩
  rcases List.mem_cons.mp hl with hl | hl
  · rw [hl]
    exact hisolated _ (Or.inl hid)
  · rw [List.mem_singleton.mp hl]
    exact hisolated _ (Or.inr ⟨"main", false, by decide +kernel⟩)

end Typing

end UnionTyping
