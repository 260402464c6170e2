import UnionTyping.Proofs.Grouping
import UnionTyping.Proofs.Reached

/-!
# `Proofs.Declared` — what a group of declarations leaves in scope

A group of a module that succeeds leaves each of its symbols with one candidate, the variable that its body was
typed against, and hands its bodies on (`checkGroup_ok`, `Establishes`). A group that fails leaves none of its
symbols, wherever it fails (`checkGroup_error`). No symbol is in two groups of a module whose names differ
(`groupSymbols_nodup`), so a module that fails leaves what its earlier groups have declared, one candidate for
each symbol, and nothing of the group it fails with (`checkGroups_ok`, `checkGroups_error`).
-/

namespace UnionTyping

open List Context Environment InferenceError Scope

/-! ## Candidates of the only scope -/

namespace Scope

variable {t : Ty}

theorem get?_define_self {s : Scope} {l : Locator} (h : s.get? l = none) : (s.define l t).get? l = some [t] := by
  have hlookup : ∀ symbols : List (Locator × List Ty), symbols.lookup l = none →
      (addCandidate l t symbols).lookup l = some [t] := by
    intro symbols hnone
    induction symbols with
    | nil => simp [addCandidate]
    | cons e rest ih =>
      obtain ⟨k, ts⟩ := e
      have hk : l ≠ k := by
        rintro rfl
        simp only [lookup_cons, beq_self_eq_true, reduceCtorEq] at hnone
      have hlk : (l == k) = false := beq_eq_false_iff_ne.mpr hk
      unfold addCandidate
      rw [if_neg hk.symm]
      simp only [lookup_cons, hlk] at hnone ⊢
      exact ih hnone
  exact hlookup s.symbols h

theorem get?_forget_self (s : Scope) (l : Locator) : (s.forget l).get? l = none := by
  refine lookup_eq_none_iff.mpr fun e he => ?_
  have hne : e.1 ≠ l := by simpa using (mem_filter.mp he).2
  simpa using hne.symm

/-- A symbol goes with its only candidate. -/
theorem undefine?_sole {s : Scope} {l : Locator} (h : s.get? l = some [t]) : s.undefine? l t = some (s.forget l) := by
  simp [undefine?, h]

end Scope

namespace Environment

variable {e : Environment}

/-- Where there is one scope, the candidates are those of that scope. -/
theorem candidates_of_outer (he : e.outer = []) (l : Locator) : e.candidates l = (e.innermost.get? l).getD [] := by
  cases l with
  | «variable» x =>
    simp only [candidates, scopes, he, List.findSome?]
    cases e.innermost.get? (.variable x) <;> rfl
  | declaration home x =>
    simp only [candidates, scopes, he, reverse_singleton, filterMap_cons, filterMap_nil]
    cases e.innermost.get? (.declaration home x) <;> simp

theorem defineAll_changes (he : e.outer = []) (entries : List (Locator × Ty)) :
    e.Changes (entries.map Prod.fst) (fun _ => True) (e.defineAll entries) :=
  .foldl (fun _ hs _ he => .define he (mem_map_of_mem hs) trivial) he

theorem forgetAll_changes (he : e.outer = []) (symbols : List Locator) :
    e.Changes symbols (fun _ => True) (symbols.foldl forget e) :=
  .foldl (fun _ hl _ he => .forget he hl) he

/-- **Symbols that are defined have the candidate they are given**, if they had none before. -/
theorem get?_defineAll {entries : List (Locator × Ty)} (he : e.outer = []) (hnodup : (entries.map Prod.fst).Nodup)
    (hfree : ∀ s ∈ entries, e.innermost.get? s.1 = none) :
    ∀ s ∈ entries, (e.defineAll entries).innermost.get? s.1 = some [s.2] := by
  induction entries generalizing e with
  | nil => simp
  | cons first rest ih =>
    obtain ⟨hfirst, hrest⟩ := nodup_cons.mp hnodup
    obtain ⟨hfree, hfrees⟩ := forall_mem_cons.mp hfree
    -- the other entries are of other symbols, so the first keeps what it is given
    have hchanges := defineAll_changes (e := e.define first.1 first.2) he rest
    refine forall_mem_cons.mpr ⟨?_, ih (e := e.define first.1 first.2) he hrest fun s hs => ?_⟩
    · exact (hchanges.scope.others _ hfirst).trans (get?_define_self hfree)
    · have hne : s.1 ≠ first.1 := ne_of_mem_of_not_mem (mem_map_of_mem hs) hfirst
      exact (get?_define hne).trans (hfrees s hs)

/-- **Symbols are gone once their only candidates are removed.** -/
theorem get?_undefineAll {entries : List (Locator × Ty)} (he : e.outer = []) (hnodup : (entries.map Prod.fst).Nodup)
    (hsole : ∀ s ∈ entries, e.innermost.get? s.1 = some [s.2]) :
    ∀ s ∈ entries, (e.undefineAll entries).innermost.get? s.1 = none := by
  induction entries generalizing e with
  | nil => simp
  | cons first rest ih =>
    obtain ⟨hfirst, hrest⟩ := nodup_cons.mp hnodup
    obtain ⟨hsole, hsoles⟩ := forall_mem_cons.mp hsole
    -- the first symbol goes with its only candidate, and the other entries do not bring it back
    have hundefine : e.undefine first.1 first.2 = ⟨e.innermost.forget first.1, e.outer⟩ := by
      unfold undefine undefine?
      rw [changeInnermost?_of_innermost (undefine?_sole hsole)]
      rfl
    have hchanges : (e.undefine first.1 first.2).Changes (rest.map Prod.fst) (fun _ => True)
        ((e.undefine first.1 first.2).undefineAll rest) := by
      refine .foldl (fun s hs e he => .undefine he (mem_map_of_mem hs)) ?_
      rw [hundefine]
      exact he
    refine forall_mem_cons.mpr ⟨?_, ih (e := e.undefine first.1 first.2) hchanges.before hrest fun s hs => ?_⟩
    · refine (hchanges.scope.others _ hfirst).trans ?_
      rw [hundefine]
      exact get?_forget_self _ _
    · have hne : s.1 ≠ first.1 := ne_of_mem_of_not_mem (mem_map_of_mem hs) hfirst
      rw [hundefine]
      exact (get?_forget hne).trans (hsoles s hs)

theorem get?_forgetAll {l : Locator} {symbols : List Locator} (h : l ∈ symbols ∨ e.innermost.get? l = none) :
    (symbols.foldl forget e).innermost.get? l = none := by
  induction symbols generalizing e with
  | nil => exact h.resolve_left not_mem_nil
  | cons first rest ih =>
    refine ih ?_
    by_cases hl : l = first
    · exact Or.inr (hl ▸ get?_forget_self _ _)
    · exact h.imp (fun hmem => (mem_cons.mp hmem).resolve_left hl) (get?_forget hl).trans

end Environment

namespace Typing

open Check

/-! ## One group -/

variable {e : Diagnostic} {done : List TypedDecl} {typed : List TypedExpr} {home : String} {decls : List Decl}
  {c d : Context}

theorem openGroup_symbols {β : Type} (group : List (Locator × β)) (c : Context) :
    (openGroup group c).1.map Member.symbol = group.map Prod.fst := by
  induction group generalizing c with
  | nil => rfl
  | cons g rest ih => exact congrArg (g.1 :: ·) (ih _)

theorem openGroup_bodies {β : Type} (group : List (Locator × β)) (c : Context) :
    (openGroup group c).1.map Member.body = group.map Prod.snd := by
  induction group generalizing c with
  | nil => rfl
  | cons g rest ih => exact congrArg (g.2 :: ·) (ih _)

theorem Orderly.openGroup {β : Type} (hc : Orderly c) (group : List (Locator × β)) :
    Orderly (openGroup group c).2 ∧ ∀ m ∈ (openGroup group c).1, orderly.Out (openGroup group c).2 m.type := by
  obtain ⟨hscoped, hadvances, howned⟩ := hc.owned.openGroup group
  obtain ⟨hfirm, hsolid⟩ := firm_houses.openGroup group hc.firm
  exact ⟨⟨hscoped, hfirm, hadvances.acyclic hc.acyclic⟩, fun m hm => ⟨howned m hm, hsolid m hm⟩⟩

/-- The bodies of a group, each of which is typed as an expression. -/
def groupBodies (home : String) (decls : List Decl) : List (Locator × Body Diagnostic (List TypedExpr)) :=
  decls.map fun d => (declared home d, asBody (infer home d.body))

theorem expect_environment {l r : Ty} (h : c.expect l r = (.ok (), d)) : d.environment = c.environment := by
  have hrestores := (restoring_solving.unify c l r trivial trivial trivial).2.1
  rwa [← c.expect_state, h] at hrestores

/-- **How a body was typed**: in scopes that are given, and since then the arena has only grown. -/
def TypedIn (home : String) (scopes : Environment) (d : Context) (e : Expr) (body : TypedExpr) : Prop :=
  ∃ before after, Orderly before ∧ before.environment = scopes ∧ infer home e before = (.ok body, after) ∧
    after.store.arena.Extends d.store.arena

theorem TypedIn.nodes {scopes : Environment} {e : Expr} {body : TypedExpr} (h : TypedIn home scopes d e body)
    {P : Arena → TypedExpr → Prop} (hP : ∀ before, Nodewise home e before P) : body.AllNodes (P d.store.arena) := by
  obtain ⟨before, after, hbefore, -, hinfer, hgrows⟩ := h
  exact (hP before).later hgrows ((hP before).infer .whole hbefore hinfer)

/-- **The bodies of a group that succeed** are all typed in the scopes that the group has opened. -/
theorem typeBodies_ok {members : List (Member (Body Diagnostic (List TypedExpr)))} {bodies : List Expr}
    {typed' : List TypedExpr} (hc : Orderly c) (hmembers : ∀ m ∈ members, orderly.Out c m.type)
    (hbodies : bodies.map (fun e => asBody (infer home e)) = members.map Member.body)
    (h : typeBodies diagnostic members typed c = (.ok (), typed', d)) :
    c.store.arena.Extends d.store.arena ∧
      ∃ new, typed' = typed ++ new ∧ Forall₂ (TypedIn home c.environment d) bodies new := by
  induction members generalizing bodies typed c with
  | nil =>
    cases h
    obtain rfl := map_eq_nil_iff.mp hbodies
    exact ⟨.refl _, [], (append_nil _).symm, .nil⟩
  | cons m rest ih =>
    obtain ⟨hm, hmembers⟩ := forall_mem_cons.mp hmembers
    obtain ⟨body, bodies, rfl, hbody, hbodies⟩ := map_eq_cons_iff.mp hbodies
    obtain ⟨t, typed₁, inner, expected, hrun, hexpect, hrest⟩ := typeBodies_cons_ok.mp h
    rw [← hbody] at hrun
    obtain ⟨e, hinfer, rfl, rfl⟩ := asBody_ok.mp hrun
    -- from the first body to its variable and on to the other bodies, the arena only grows
    have hnoted : Orderly (c.note .trace fun _ => "[decl] solving: " ++ m.symbol.text) :=
      hc.note _ (by decide)
    obtain ⟨hinner, hgrows₁, hout⟩ := hnoted.infer hinfer
    obtain ⟨hexpected, hgrows₂⟩ := hinner.expect (out_mono hgrows₁ hm) hout hexpect
    have hgrows : c.store.arena.Extends expected.store.arena := hgrows₁.trans hgrows₂
    have henv : expected.environment = c.environment :=
      (expect_environment hexpect).trans (infer_environment (c := c.note _ _) hinfer)
    obtain ⟨hgrows₃, new, rfl, hnew⟩ :=
      ih hexpected (fun m hm => out_mono hgrows (hmembers m hm)) hbodies hrest
    rw [henv] at hnew
    refine ⟨hgrows.trans hgrows₃, e :: new, append_assoc _ _ _, .cons ?_ hnew⟩
    exact ⟨_, inner, hnoted, rfl, hinfer, hgrows₂.trans hgrows₃⟩

theorem body_of_mem_openGroup {m : Member (Body Diagnostic (List TypedExpr))}
    (h : m ∈ (openGroup (groupBodies home decls) c).1) : ∃ e, m.body = asBody (infer home e) := by
  obtain ⟨decl, -, heq⟩ := mem_map.mp (mem_openGroup h)
  exact ⟨decl.body, (Prod.mk.inj heq).2.symm⟩

/-- The entries of a group that is opened are its symbols with their variables. -/
theorem openGroup_entries (home : String) (decls : List Decl) (c : Context) :
    ((openGroup (groupBodies home decls) c).1.map Member.entry).map Prod.fst = decls.map (declared home) := by
  have hsymbols := openGroup_symbols (groupBodies home decls) c
  rw [groupBodies, map_map] at hsymbols
  rw [map_map]
  exact hsymbols

theorem typeBodies_restores (home : String) (decls : List Decl) (c : Context) :
    (typeBodies diagnostic (openGroup (groupBodies home decls) c).1 []
      (openGroup (groupBodies home decls) c).2).2.2.environment =
      (openGroup (groupBodies home decls) c).2.environment := by
  have hbodies : ∀ m ∈ (openGroup (groupBodies home decls) c).1, ∀ typed d, restoring.Inv d →
      restoring.Inv (m.body typed d).2.2 ∧ restoring.Step d (m.body typed d).2.2 ∧
        ∀ t, (m.body typed d).1 = .ok t → restoring.Out (m.body typed d).2.2 t := by
    intro m hm typed d hd
    obtain ⟨e, hbody⟩ := body_of_mem_openGroup hm
    rw [hbody]
    exact asBody_obeys (restoring_disciplined.infer_obeys home e) typed d hd
  exact (typeBodies_obeys restoring_solving _ hbodies [] _ trivial fun _ _ => trivial).2.1

/-- **What becomes of a group of a module that is opened**: its symbols are left with their variables if the
    bodies are typed, and are removed again otherwise. -/
theorem declareGroup_runs (home : String) (decls : List Decl) (c : Context) :
    ∃ members opened outcome typed inner journal, openGroup (groupBodies home decls) c = (members, opened) ∧
      typeBodies diagnostic members [] opened = (outcome, typed, inner) ∧
      let entries := members.map Member.entry
      let closed : Context := { inner with store := { inner.store with journal } }
      entries.map Prod.fst = decls.map (declared home) ∧
      ((outcome = .ok () ∧ c.declareGroup diagnostic (groupBodies home decls) [] =
        (.ok (members.map fun m => inner.expose m.type), typed,
          { closed with environment := c.environment.defineAll entries })) ∨
      ∃ e, c.declareGroup diagnostic (groupBodies home decls) [] = (.error e, typed,
        { closed with environment := (c.environment.defineAll entries).undefineAll entries })) := by
  have hentries := openGroup_entries home decls c
  have hrestores := typeBodies_restores home decls c
  cases hopen : openGroup (groupBodies home decls) c with
  | mk members opened =>
    rw [hopen] at hentries hrestores
    cases hrun : typeBodies diagnostic members [] opened with
    | mk outcome rest =>
      obtain ⟨typed, inner⟩ := rest
      rw [hrun] at hrestores
      obtain ⟨journal, -, hcases⟩ := declareGroup_cases hopen hrun hrestores
      exact ⟨members, opened, outcome, typed, inner, journal, rfl, hrun, hentries, hcases⟩

/-- **A group that is declared**: its symbols are defined as variables, which stand for the types that are
    found, and its bodies are typed. -/
theorem declareGroup_ok {types : List Ty} (hc : Orderly c)
    (h : c.declareGroup diagnostic (groupBodies home decls) [] = (.ok types, typed, d)) :
    ∃ (entries : List (Locator × Ty)) (pinned : List Ty), entries.map Prod.fst = decls.map (declared home) ∧
      d.environment = c.environment.defineAll entries ∧ types = entries.map (fun s => d.expose s.2) ∧
      (∀ s ∈ entries, orderly.Out d s.2) ∧
      Forall₂ (fun decl e => TypedIn home (d.environment.pinAll pinned) d decl.body e) decls typed := by
  obtain ⟨members, opened, outcome, typed', inner, journal, hopen, hrun, hentries, ⟨rfl, hok⟩ | ⟨e, herror⟩⟩ :=
    declareGroup_runs home decls c
  · rw [h] at hok
    cases hok
    obtain ⟨hopened, hmembers⟩ := hc.openGroup (groupBodies home decls)
    have henv := openGroup_environment (groupBodies home decls) c
    have hbodies : (decls.map Decl.body).map (fun e => asBody (infer home e)) =
        (openGroup (groupBodies home decls) c).1.map Member.body := by
      rw [openGroup_bodies, groupBodies, map_map, map_map]
      rfl
    rw [hopen] at hopened hmembers henv hbodies
    obtain ⟨hgrows, new, rfl, hnew⟩ := typeBodies_ok hopened hmembers hbodies hrun
    rw [henv] at hnew
    refine ⟨members.map Member.entry, _, hentries, rfl, ?_, fun s hs => ?_, forall₂_map_left_iff.mp hnew⟩
    · rw [map_map]
      rfl
    · obtain ⟨m, hm, rfl⟩ := mem_map.mp hs
      exact out_mono hgrows (hmembers m hm)
  · rw [h] at herror
    cases herror

/-- **A group that is not declared**: its symbols are removed again. -/
theorem declareGroup_error (h : c.declareGroup diagnostic (groupBodies home decls) [] = (.error e, typed, d)) :
    ∃ entries : List (Locator × Ty), entries.map Prod.fst = decls.map (declared home) ∧
      d.environment = (c.environment.defineAll entries).undefineAll entries := by
  obtain ⟨members, opened, outcome, typed', inner, journal, -, -, hentries, ⟨-, hok⟩ | ⟨e, herror⟩⟩ :=
    declareGroup_runs home decls c
  · rw [h] at hok
    cases hok
  · rw [h] at herror
    cases herror
    exact ⟨_, hentries, rfl⟩

/-- **What a group of a module leaves if it succeeds**: its symbols have a variable each in place of what they
    were before, the types of its declarations are what is seen of the variables, and its bodies are handed on. -/
structure Establishes (home : String) (decls : List Decl) (entries : List (Locator × Ty)) (done : List TypedDecl)
    (c d : Context) : Prop where
  symbols : done.map TypedDecl.symbol = entries.map Prod.fst
  environment : d.environment = ((entries.map Prod.fst).foldl Environment.forget c.environment).defineAll entries
  types : ∀ x ∈ done, ∃ t, (x.symbol, t) ∈ entries ∧ orderly.Out d t ∧ x.type = d.expose t
  bodies : ∀ x ∈ done, ∃ decl ∈ decls, x.symbol = declared home decl ∧ ∃ body pinned,
    TypedIn home (d.environment.pinAll pinned) d decl.body body ∧ body.handOff d.store.arena x.type = .ok x.body

theorem mem_zip_zip {α β γ : Type} {xs : List α} {ys : List β} {zs : List γ} {x : α} {y : β} {z : γ}
    (h : (x, y, z) ∈ xs.zip (ys.zip zs)) : (x, z) ∈ xs.zip zs := by
  obtain ⟨i, hi⟩ := mem_iff_getElem?.mp h
  obtain ⟨hx, hyz⟩ := getElem?_zip_eq_some.mp hi
  exact mem_iff_getElem?.mpr ⟨i, getElem?_zip_eq_some.mpr ⟨hx, (getElem?_zip_eq_some.mp hyz).2⟩⟩

theorem handOffAll_ok {a : Arena} {group : List (Decl × Ty × TypedExpr)} (h : handOffAll a home group = .ok done) :
    done.map TypedDecl.symbol = (group.map Prod.fst).map (declared home) ∧
      ∀ x ∈ done, ∃ g ∈ group, x.symbol = declared home g.1 ∧ x.type = g.2.1 ∧ g.2.2.handOff a g.2.1 = .ok x.body := by
  induction group generalizing done with
  | nil =>
    cases h
    exact ⟨rfl, by simp⟩
  | cons g rest ih =>
    obtain ⟨decl, t, body⟩ := g
    simp only [handOffAll, bind, Except.bind, pure, Except.pure] at h
    cases hbody : body.handOff a t with
    | error e =>
      rw [hbody] at h
      cases h
    | ok body' =>
      cases hrest : handOffAll a home rest with
      | error e =>
        rw [hbody, hrest] at h
        cases h
      | ok more =>
        rw [hbody, hrest] at h
        cases h
        obtain ⟨hsymbols, hmore⟩ := ih hrest
        refine ⟨congrArg (declared home decl :: ·) hsymbols, forall_mem_cons.mpr ⟨?_, fun x hx => ?_⟩⟩
        · exact ⟨_, mem_cons_self, rfl, rfl, hbody⟩
        · obtain ⟨g, hg, hx⟩ := hmore x hx
          exact ⟨g, mem_cons_of_mem _ hg, hx⟩

theorem handOffAll_error {a : Arena} {group : List (Decl × Ty × TypedExpr)} (h : handOffAll a home group = .error e) :
    ∃ earlier x t body later, group = earlier ++ (x, t, body) :: later ∧
      (∀ g ∈ earlier, ∃ done, g.2.2.handOff a g.2.1 = .ok done) ∧ body.handOff a t = .error e := by
  induction group with
  | nil => cases h
  | cons g rest ih =>
    obtain ⟨x, t, body⟩ := g
    simp only [handOffAll, Bind.bind, Except.bind, Pure.pure, Except.pure] at h
    cases hbody : body.handOff a t with
    | error e' =>
      rw [hbody] at h
      cases h
      exact ⟨[], x, t, body, rest, rfl, by simp, hbody⟩
    | ok done =>
      cases hrest : handOffAll a home rest with
      | error e' =>
        rw [hbody, hrest] at h
        cases h
        obtain ⟨earlier, y, u, failing, later, rfl, hearlier, hfails⟩ := ih hrest
        exact ⟨(x, t, body) :: earlier, y, u, failing, later, rfl,
          forall_mem_cons.mpr ⟨⟨done, hbody⟩, hearlier⟩, hfails⟩
      | ok more =>
        rw [hbody, hrest] at h
        cases h

/-- **A group of a module succeeds.** -/
theorem checkGroup_ok (hc : Calm c) (h : checkGroup home decls c = (.ok done, d)) :
    ∃ entries : List (Locator × Ty), entries.map Prod.fst = decls.map (declared home) ∧
      Establishes home decls entries done c d := by
  unfold checkGroup at h
  simp only [] at h
  split at h
  · cases h
  · rename_i types typed after hdeclare
    split at h
    · rename_i done' hhand
      cases h
      obtain ⟨entries, pinned, hentries, henv, rfl, hout, hbodies⟩ :=
        declareGroup_ok (hc.forgetAll _).orderly hdeclare
      obtain ⟨hsymbols, hdone⟩ := handOffAll_ok hhand
      -- the declarations, their entries and their bodies are as many
      have hcount : entries.length = decls.length := by simpa using congrArg List.length hentries
      have hlength := hbodies.length_eq
      have htypes : ((entries.map fun s => d.expose s.2).zip typed).map Prod.fst =
          entries.map fun s => d.expose s.2 := map_fst_zip (by simp [hcount, hlength])
      refine ⟨entries, hentries, ?_, ?_, fun x hx => ?_, fun x hx => ?_⟩
      · have hdecls : (decls.zip ((entries.map fun s => d.expose s.2).zip typed)).map Prod.fst = decls :=
          map_fst_zip (by simp [hcount, hlength])
        rw [hsymbols, hdecls, hentries]
      · rw [henv, forgetAll_state, hentries]
      · obtain ⟨g, hg, hsymbol, htype, -⟩ := hdone x hx
        have hmem : (x.symbol, x.type) ∈ entries.map fun s => (s.1, d.expose s.2) := by
          have hpair := mem_map_of_mem (f := Prod.map (declared home) Prod.fst) hg
          rw [← zip_map, htypes, ← hentries, zip_map'] at hpair
          rw [hsymbol, htype]
          exact hpair
        obtain ⟨s, hs, heq⟩ := mem_map.mp hmem
        obtain ⟨hsymbol, htype⟩ := Prod.mk.inj heq
        exact ⟨s.2, hsymbol ▸ hs, hout s hs, htype.symm⟩
      · obtain ⟨⟨decl, t, body⟩, hg, hsymbol, htype, hbody⟩ := hdone x hx
        exact ⟨decl, (of_mem_zip hg).1, hsymbol, body, pinned, forall₂_zip hbodies (mem_zip_zip hg), htype ▸ hbody⟩
    · cases h

/-- **Each symbol of a group that succeeds has one candidate**, of the type that was found for it. -/
theorem Establishes.candidates {entries : List (Locator × Ty)} (h : Establishes home decls entries done c d)
    (hc : c.environment.outer = []) (hnodup : (entries.map Prod.fst).Nodup) :
    ∀ x ∈ done, ∃ t, d.environment.candidates x.symbol = [t] ∧ d.expose t = x.type := by
  intro x hx
  obtain ⟨t, hmem, -, htype⟩ := h.types x hx
  have hforgotten := (forgetAll_changes hc (entries.map Prod.fst)).after
  have hget := get?_defineAll hforgotten hnodup (fun s hs => get?_forgetAll (Or.inl (mem_map_of_mem hs))) _ hmem
  refine ⟨t, ?_, htype.symm⟩
  rw [h.environment, candidates_of_outer (defineAll_changes hforgotten _).after, hget]
  rfl

/-- **A group of a module that fails leaves none of its symbols**, whether it fails in a body, between a body and
    its variable, or when it is handed on. -/
theorem checkGroup_error (hc : Settled c) (hnodup : (decls.map (declared home)).Nodup)
    (h : checkGroup home decls c = (.error e, d)) :
    ∀ l ∈ decls.map (declared home), d.environment.candidates l = [] := by
  have hd := (hc.checkGroup h).settled
  suffices hget : ∀ l ∈ decls.map (declared home), d.environment.innermost.get? l = none by
    intro l hl
    rw [candidates_of_outer hd.outer, hget l hl]
    rfl
  unfold checkGroup at h
  simp only [] at h
  split at h
  · rename_i e' typed after hdeclare
    cases h
    obtain ⟨entries, hentries, henv⟩ := declareGroup_error hdeclare
    rw [forgetAll_state, ← hentries] at henv
    rw [← hentries] at hnodup ⊢
    -- the variables that the symbols were given are their only candidates, and are removed
    have hforgotten := (forgetAll_changes hc.outer (entries.map Prod.fst)).after
    have hsole := get?_defineAll hforgotten hnodup (fun s hs => get?_forgetAll (Or.inl (mem_map_of_mem hs)))
    have hgone := get?_undefineAll (defineAll_changes hforgotten _).after hnodup hsole
    intro l hl
    obtain ⟨s, hs, rfl⟩ := mem_map.mp hl
    rw [henv]
    exact hgone s hs
  · split at h
    · cases h
    · cases h
      intro l hl
      rw [forgetAll_state]
      exact get?_forgetAll (Or.inl hl)

/-! ## Groups in a row -/

variable {group : List Nat} {groups rest : List (List Nat)}

/-- The declarations of a group that is given by their places. -/
def groupDecls (decls : List Decl) (group : List Nat) : List Decl :=
  group.filterMap fun i => decls[i]?

/-- The symbols that a group declares. -/
def groupSymbols (home : String) (decls : List Decl) (group : List Nat) : List Locator :=
  (groupDecls decls group).map (declared home)

theorem groupDecls_eq (decls : List Decl) (group : List Nat) :
    (group.filterMap fun i => decls[i]?.map fun d => (i, d)).map Prod.snd = groupDecls decls group := by
  rw [map_filterMap]
  refine filterMap_congr fun i _ => ?_
  rw [Option.map_map]
  exact Option.map_id_apply

theorem mem_groupDecls {x : Decl} (h : x ∈ groupDecls decls group) : x ∈ decls := by
  obtain ⟨i, -, hi⟩ := mem_filterMap.mp h
  exact mem_of_getElem? hi

theorem checkGroups_cons_ok {typed : List (Nat × TypedDecl)} :
    checkGroups home decls (group :: rest) c = (.ok typed, d) ↔ ∃ done between more,
      checkGroup home (groupDecls decls group) c = (.ok done, between) ∧
      checkGroups home decls rest between = (.ok more, d) ∧
      typed = ((group.filterMap fun i => decls[i]?.map fun d => (i, d)).map Prod.fst).zip done ++ more := by
  simp only [checkGroups, bind_ok, pure_ok, groupDecls_eq]
  constructor
  · rintro ⟨done, between, hdone, more, after, hmore, rfl, rfl⟩
    exact ⟨done, between, more, hdone, hmore, rfl⟩
  · rintro ⟨done, between, more, hdone, hmore, rfl⟩
    exact ⟨done, between, hdone, more, d, hmore, rfl, rfl⟩

theorem checkGroups_cons_of_ok (h : checkGroup home (groupDecls decls group) c = (.ok done, d)) :
    (checkGroups home decls (group :: rest) c).2 = (checkGroups home decls rest d).2 := by
  rw [← groupDecls_eq] at h
  simp only [checkGroups, run_bind, h]
  cases checkGroups home decls rest d with
  | mk r after => cases r <;> rfl

theorem checkGroups_cons_of_error (h : checkGroup home (groupDecls decls group) c = (.error e, d)) :
    (checkGroups home decls (group :: rest) c).2 = d := by
  rw [← groupDecls_eq] at h
  simp [checkGroups, run_bind, h]

/-- **Groups in a row fail with one of them**, when those before it have succeeded. -/
theorem checkGroups_error (h : checkGroups home decls groups c = (.error e, d)) :
    ∃ earlier group later typed between, groups = earlier ++ group :: later ∧
      checkGroups home decls earlier c = (.ok typed, between) ∧
      checkGroup home (groupDecls decls group) between = (.error e, d) := by
  induction groups generalizing c with
  | nil => cases h
  | cons group rest ih =>
    simp only [checkGroups, bind_error, groupDecls_eq] at h
    -- the first group fails, or one of the others after it
    obtain hgroup | ⟨done, between, hdone, hmore | ⟨_, _, _, hpure⟩⟩ := h
    · exact ⟨[], group, rest, [], c, rfl, rfl, hgroup⟩
    · obtain ⟨earlier, failing, later, typed, after, rfl, hearlier, hfailing⟩ := ih hmore
      exact ⟨group :: earlier, failing, later, _, after, rfl,
        checkGroups_cons_ok.mpr ⟨done, between, typed, hdone, hearlier, rfl⟩, hfailing⟩
    · cases hpure

/-- **Groups in a row that succeed** are isolated together. -/
theorem checkGroups_isolates {typed : List (Nat × TypedDecl)} (hc : Calm c)
    (h : checkGroups home decls groups c = (.ok typed, d)) :
    Calm d ∧ Isolates (groups.flatMap (groupSymbols home decls)) c d := by
  induction groups generalizing c typed with
  | nil =>
    cases h
    exact ⟨hc, .refl hc.settled⟩
  | cons group rest ih =>
    obtain ⟨done, between, more, hdone, hmore, -⟩ := checkGroups_cons_ok.mp h
    have hfirst := hc.settled.checkGroup hdone
    have hcalm := hc.checkGroup home (groupDecls decls group)
    rw [hdone] at hcalm
    obtain ⟨hd, hrest⟩ := ih hcalm hmore
    exact ⟨hd, (hfirst.weaken (subset_append_left _ _)).trans (hrest.weaken (subset_append_right _ _))⟩

/-- A symbol has the candidates it had, and they stand for what they did. -/
def SameSymbol (c d : Context) (l : Locator) : Prop :=
  d.environment.candidates l = c.environment.candidates l ∧
    ∀ t ∈ c.environment.candidates l, d.expose t = c.expose t

theorem SameSymbol.trans {e : Context} {l : Locator} (h : SameSymbol c d l) (h' : SameSymbol d e l) :
    SameSymbol c e l := by
  refine ⟨h'.1.trans h.1, fun t ht => ?_⟩
  exact (h'.2 t (h.1 ▸ ht)).trans (h.2 t ht)

/-- **A symbol that is not declared anew is the same.** -/
theorem Isolates.same {symbols : List Locator} (h : Isolates symbols c d) (hc : Settled c) {l : Locator}
    (hl : l ∉ symbols) : SameSymbol c d l :=
  ⟨h.candidates l hl, fun _ ht => hc.expose_eq h.advances (hc.owns_candidates ht)⟩

/-- Loading a module leaves all symbols the same. -/
theorem load_same (input : Input) (c : Context) (l : Locator) : SameSymbol c (input.load c) l := by
  obtain ⟨hstore, henv, -⟩ := input.load_state c
  exact ⟨congrArg (fun e : Environment => e.candidates l) henv,
    fun t _ => congrArg (fun s : Store => s.arena.expose t) hstore⟩

/-- **Groups in a row that succeed leave one candidate for each symbol**, of the type that was found for it, if
    no symbol is declared twice. -/
theorem checkGroups_ok {typed : List (Nat × TypedDecl)} (hc : Calm c)
    (hnodup : (groups.flatMap (groupSymbols home decls)).Nodup)
    (h : checkGroups home decls groups c = (.ok typed, d)) :
    typed.map (fun x => x.2.symbol) = groups.flatMap (groupSymbols home decls) ∧
      ∀ x ∈ typed, ∃ t, d.environment.candidates x.2.symbol = [t] ∧ d.expose t = x.2.type := by
  induction groups generalizing c typed with
  | nil =>
    cases h
    exact ⟨rfl, by simp⟩
  | cons group rest ih =>
    obtain ⟨done, between, more, hdone, hmore, rfl⟩ := checkGroups_cons_ok.mp h
    rw [flatMap_cons, nodup_append] at hnodup
    obtain ⟨hfirst, hrest, hdisjoint⟩ := hnodup
    have hbetween := hc.checkGroup home (groupDecls decls group)
    rw [hdone] at hbetween
    obtain ⟨entries, hentries, hestablishes⟩ := checkGroup_ok hc hdone
    obtain ⟨hsymbols, htyped⟩ := ih hbetween hrest hmore
    have hdoneSymbols : done.map TypedDecl.symbol = groupSymbols home decls group :=
      hestablishes.symbols.trans hentries
    have hzip : (((group.filterMap fun i => decls[i]?.map fun d => (i, d)).map Prod.fst).zip done).map
        Prod.snd = done := by
      refine map_snd_zip (Nat.le_of_eq ?_)
      have hlength := congrArg List.length hdoneSymbols
      rw [length_map, groupSymbols, length_map, ← groupDecls_eq, length_map] at hlength
      rw [hlength, length_map]
    refine ⟨?_, fun x hx => ?_⟩
    · rw [map_append, hsymbols, flatMap_cons, ← hdoneSymbols]
      nth_rewrite 2 [← hzip]
      rw [map_map]
      rfl
    · rcases mem_append.mp hx with hx | hx
      · -- a symbol of this group is in none of those that follow
        have hx : x.2 ∈ done := (of_mem_zip hx).2
        obtain ⟨t, hcandidates, htype⟩ := hestablishes.candidates hc.settled.outer (hentries ▸ hfirst) x.2 hx
        have hother : x.2.symbol ∉ rest.flatMap (groupSymbols home decls) := by
          intro hmem
          exact hdisjoint _ (hdoneSymbols ▸ mem_map_of_mem hx) _ hmem rfl
        obtain ⟨hsame, hexpose⟩ := (checkGroups_isolates hbetween hmore).2.same hbetween.settled hother
        exact ⟨t, hsame.trans hcandidates, (hexpose t (hcandidates ▸ mem_cons_self)).trans htype⟩
      · exact htyped x hx

/-! ## Modules -/

variable {p : Program}

/-- The actions that build the graph of a module. -/
def dependencyActions (decls : List Decl) : List (Dependency.Action Nat) :=
  decls.zipIdx.flatMap fun x => .entry x.2 :: x.1.body.freeNames.filterMap fun name =>
    (decls.findIdx? fun other => other.name.name = name).map (.dependency x.2)

theorem dependencies_eq_build (decls : List Decl) :
    dependencies decls = Dependency.Action.build (dependencyActions decls) := by
  unfold dependencies Dependency.Action.build dependencyActions
  rw [foldl_flatMap]
  refine foldl_ext _ _ _ fun g x _ => ?_
  rw [foldl_cons, foldl_filterMap]
  refine foldl_ext _ _ _ fun g name _ => ?_
  cases decls.findIdx? fun other => other.name.name = name <;> rfl

/-- The groups of a module are those of a graph that was built. -/
theorem dependencies_arrange (decls : List Decl) : Dependency.Graph.Arranges
    (fun a b => a ≠ b ∧ Dependency.Action.Needs (dependencyActions decls) a b) (· ∈ (dependencies decls).keys)
    (dependencies decls).groups := by
  rw [dependencies_eq_build]
  exact (Dependency.Action.unresolved_build (dependencyActions decls)).arranges_groupsWithin (Nat.le_refl _)

/-- No place of a module is in two groups, or twice in one. -/
theorem places_nodup (decls : List Decl) : (dependencies decls).groups.flatten.Nodup :=
  (dependencies_arrange decls).once

/-- The symbols of groups are those of the declarations at their places. -/
theorem flatMap_groupSymbols (home : String) (decls : List Decl) (groups : List (List Nat)) :
    groups.flatMap (groupSymbols home decls) = (groupDecls decls groups.flatten).map (declared home) := by
  rw [groupDecls, filterMap_flatten, map_flatten, map_map, flatMap_def]
  rfl

/-- **No symbol is declared twice** by a module whose names differ. -/
theorem groupSymbols_nodup (home : String) (hnames : (decls.map fun d => d.name.name).Nodup) :
    ((dependencies decls).groups.flatMap (groupSymbols home decls)).Nodup := by
  rw [flatMap_groupSymbols, groupDecls, map_filterMap]
  -- two places of one symbol are places of one name, and so the same
  refine (places_nodup decls).filterMap fun i j l hi hj => ?_
  obtain ⟨d, hd, rfl⟩ := Option.map_eq_some_iff.mp hi
  obtain ⟨d', hd', heq⟩ := Option.map_eq_some_iff.mp hj
  obtain ⟨-, hname⟩ := Locator.declaration.inj heq
  have hplace : i < (decls.map fun d => d.name.name).length := by
    rw [length_map]
    exact (List.getElem?_eq_some_iff.mp hd).1
  refine (getElem?_inj hplace hnames).mp ?_
  rw [getElem?_map, getElem?_map, hd, hd', Option.map_some, Option.map_some, hname]

theorem duplicate?_eq_none_iff {seen : List String} : duplicate? seen decls = none ↔
    (decls.map fun d => d.name.name).Nodup ∧ ∀ d ∈ decls, d.name.name ∉ seen := by
  induction decls generalizing seen with
  | nil => simp [duplicate?]
  | cons d rest ih =>
    by_cases hseen : d.name.name ∈ seen
    · simp [duplicate?, hseen]
    · rw [duplicate?, if_neg (by simpa using hseen), ih, map_cons, nodup_cons, forall_mem_cons]
      constructor
      · rintro ⟨hrest, hother⟩
        refine ⟨⟨fun hmem => ?_, hrest⟩, hseen, fun x hx hmem => hother x hx (mem_cons_of_mem _ hmem)⟩
        obtain ⟨x, hx, hname⟩ := mem_map.mp hmem
        exact hother x hx (hname ▸ mem_cons_self)
      · rintro ⟨⟨hother, hrest⟩, -, hunseen⟩
        refine ⟨hrest, fun x hx hmem => ?_⟩
        rcases mem_cons.mp hmem with hname | hmem
        · exact hother (mem_map.mpr ⟨x, hx, hname⟩)
        · exact hunseen x hx hmem

theorem checkProgram_of_duplicate {x : Decl} (h : duplicate? [] p.decls = some x) :
    (checkProgram p c).2 = c.addModule p.home := by
  simp only [checkProgram, run_bind, run_modify]
  rw [h]
  rfl

theorem checkProgram_of_distinct (h : duplicate? [] p.decls = none) : (checkProgram p c).2 =
    (checkGroups p.home p.decls (dependencies p.decls).groups (c.addModule p.home)).2 := by
  simp only [checkProgram, run_bind, run_modify]
  rw [h]
  simp only [run_bind]
  cases checkGroups p.home p.decls (dependencies p.decls).groups (c.addModule p.home) with
  | mk r after => cases r <;> rfl

theorem checkProgram_ok {result : TypedProgram} (h : checkProgram p c = (.ok result, d)) :
    ∃ typed, checkGroups p.home p.decls (dependencies p.decls).groups (c.addModule p.home) = (.ok typed, d) ∧
      result = ⟨p.home, (List.range p.decls.length).filterMap fun i => typed.lookup i⟩ := by
  simp only [checkProgram, run_bind, run_modify] at h
  cases hduplicate : duplicate? [] p.decls with
  | some _ =>
    simp only [hduplicate] at h
    cases h
  | none =>
    simp only [hduplicate] at h
    obtain ⟨typed, after, htyped, hresult⟩ := bind_ok.mp h
    obtain ⟨rfl, rfl⟩ := pure_ok.mp hresult
    exact ⟨typed, htyped, rfl⟩

/-- **A module whose names differ fails with one of its groups.** -/
theorem checkProgram_error (hnames : (p.decls.map fun d => d.name.name).Nodup) (h : checkProgram p c = (.error e, d)) :
    checkGroups p.home p.decls (dependencies p.decls).groups (c.addModule p.home) = (.error e, d) := by
  have hduplicate : duplicate? [] p.decls = none :=
    duplicate?_eq_none_iff.mpr ⟨hnames, fun _ _ => not_mem_nil⟩
  simp only [checkProgram, run_bind, run_modify] at h
  simp only [hduplicate] at h
  rcases bind_error.mp h with h | ⟨_, _, _, hpure⟩
  · exact h
  · cases hpure

/-! ## Expressions -/

theorem checkExpr_ok {e : Expr} {x : TypedDecl} (h : checkExpr e c = (.ok x, d)) :
    ∃ body after done, infer c.home e c = (.ok body, after) ∧
      body.handOff after.store.arena (after.expose body.type) = .ok done ∧
      x = ⟨.declaration c.home latest, after.expose body.type, done, e.span⟩ ∧
      d = (after.forget (.declaration c.home latest)).define (.declaration c.home latest) (after.expose body.type) := by
  obtain ⟨_, _, hget, hrun⟩ := bind_ok.mp h
  cases hget
  obtain ⟨body, after, hbody, hrun⟩ := bind_ok.mp hrun
  obtain ⟨_, _, hget, hrun⟩ := bind_ok.mp hrun
  cases hget
  obtain ⟨done, after', hhand, hrun⟩ := bind_ok.mp hrun
  rw [run_lift] at hhand
  obtain ⟨hdone, rfl⟩ := Prod.mk.inj hhand
  obtain ⟨_, _, hset, hrun⟩ := bind_ok.mp hrun
  cases hset
  obtain ⟨rfl, rfl⟩ := pure_ok.mp hrun
  exact ⟨body, _, done, hbody, hdone, rfl, rfl⟩

/-- An expression fails where it is typed, or where its type is handed on. -/
theorem checkExpr_cause {x : Expr} (h : checkExpr x c = (.error e, d)) : infer c.home x c = (.error e, d) ∨
    ∃ body after, infer c.home x c = (.ok body, after) ∧
      body.handOff after.store.arena (after.expose body.type) = .error e := by
  unfold checkExpr at h
  simp only [run_bind, run_get] at h
  cases hrun : infer c.home x c with
  | mk outcome after =>
    rw [hrun] at h
    cases outcome with
    | error e' =>
      cases h
      exact .inl rfl
    | ok body =>
      simp only [run_lift] at h
      cases hhand : body.handOff after.store.arena (after.expose body.type) with
      | error e' =>
        rw [hhand] at h
        cases h
        exact .inr ⟨body, _, rfl, hhand⟩
      | ok done =>
        rw [hhand] at h
        cases h

/-- An expression that fails declares nothing. -/
theorem checkExpr_error {x : Expr} (hc : Settled c) (h : checkExpr x c = (.error e, d)) (l : Locator) :
    SameSymbol c d l := by
  have hisolates := checkExpr_isolates hc x
  rw [h] at hisolates
  exact hisolates.same hc not_mem_nil

end Typing
end UnionTyping
