import UnionTyping.Proofs.Failing
import UnionTyping.Proofs.Faithful
import UnionTyping.Proofs.Handoff
import UnionTyping.Proofs.Ordinary

/-!
# `Proofs.Blame` — type errors point into what failed

The solver's failures point nowhere. A place is given to them on the way out, by the first step that knows one: the
expression at hand, the condition of a conditional, the name of a local binding, and for what is left the
declaration. What points somewhere already is left alone.

An expression that cannot be typed fails inside its range (`infer_blames`). In a group of declarations the one to
blame is found by counting the bodies that were typed. `GroupFails` says which declaration it has to be, by
following the group declaration by declaration; and the count agrees (`checkGroup_fails`), because a failure without
a place comes only from comparing a body with its variable, right after that body was counted. In the contexts
that a session reaches there is no third way to fail: what is typed has a type.
-/

namespace UnionTyping

open List Context TypedExpr InferenceError

/-! ## Places in what was read -/

/-- **All places in the expression lie inside the range.** -/
def Expr.Inside (outer : Span) (e : Expr) : Prop :=
  ∀ s ∈ e.places, s.Within outer

theorem Expr.mem_places {s : Span} {e : Expr} :
    s ∈ e.places ↔ s = e.span ∨ s ∈ e.binderSpan?.toList ∨ ∃ x ∈ e.children, s ∈ x.places := by
  cases e <;> simp [places, Expr.span, binderSpan?, Expr.children]

theorem Expr.span_mem_places (e : Expr) : e.span ∈ e.places :=
  mem_places.mpr (.inl rfl)

/-- A declaration as it is read: its name and its body are inside its range, which is one of the source. -/
structure Decl.Placed (source : Nat) (x : Decl) : Prop where
  source : x.span.source = source
  name : x.name.span.Within x.span
  body : x.body.Inside x.span

namespace Grammar

open Parse

variable {source : Nat} {c d : Cursor} {e : Expr}

theorem Located.inside (h : Located source c e d) (hchildren : ∀ x ∈ e.children, x.Inside x.span) :
    e.Inside e.span := by
  intro s hs
  rcases Expr.mem_places.mp hs with rfl | hs | ⟨x, hx, hs⟩
  · exact (h.span_within (.refl _) (.refl _)).self
  · exact h.within s (mem_append_left _ hs)
  · exact (hchildren x hx s hs).trans (h.within _ (mem_append_right _ (mem_map_of_mem hx)))

theorem Derives.children_inside (h : Derives source c e d) : ∀ x ∈ e.children, x.Inside x.span := by
  induction h with
  | of_form hR h ih =>
    rcases h.children_cases fun h => (hR h).reaches with hchildren | ⟨y, _, _, hsame, -, -, hy, -⟩
    · intro x hx
      obtain ⟨_, _, -, hread, -⟩ := hchildren x hx
      exact (hR hread).located.inside (ih hread)
    · rw [hsame]
      exact ih hy

/-- **The places in an expression that was read lie inside its range.** -/
theorem Derives.inside (h : Derives source c e d) : e.Inside e.span :=
  h.located.inside h.children_inside

theorem decl_placed (source : Nat) : (decl source).Yields (Decl.Placed source) := by
  intro c x d h
  obtain ⟨c₁, c₂, hname, hgap, hread, hspan⟩ := decl_reads h
  have hbody := expr_derives hread
  have hreaches := (ident_forward source).reaches hname
  refine ⟨by rw [hspan], ?_, ?_⟩
  · rw [hspan, ident_span hname]
    exact (Cursor.Reaches.refl c).range_within hreaches (hgap.trans hbody.reaches)
  · rw [hspan]
    exact fun s hs => (hbody.inside s hs).trans (hbody.located.span_within (hreaches.trans hgap) (.refl d))

/-- An expression that was read on its own lies in its source. -/
theorem inside_of_parseExpr {text : String} (h : parseExpr source text = .ok e) :
    e.span.source = source ∧ e.Inside e.span := by
  obtain ⟨d, hread, -⟩ := run_reads h
  simp only [expression, bind_reads, pure_reads] at hread
  obtain ⟨_, c₁, -, e', c₂, he, _, _, -, _, _, -, rfl, -⟩ := hread
  have hderives := expr_derives he
  exact ⟨(hderives.located.span_within (.refl _) (.refl _)).source, hderives.inside⟩

end Grammar

/-! ## Diagnostics that point into a range -/

/-- The finding points to a place inside the range. -/
def Diagnostic.PointsInto (d : Diagnostic) (outer : Span) : Prop :=
  ∃ s, d.span = some s ∧ s.Within outer

namespace Diagnostic.PointsInto

variable {d : Diagnostic} {s : Span}

/-- What points somewhere is left alone. -/
theorem withSpan_eq (h : d.PointsInto s) (place : Option Span) : d.withSpan place = d := by
  obtain ⟨p, hp, -⟩ := h
  simp only [withSpan, hp, Option.some_or]
  rw [← hp]

theorem of_withSpan {t : Span} (h : d.span = none ∨ d.PointsInto t) (hst : s.Within t) :
    (d.withSpan (some s)).PointsInto t := by
  rcases h with hnone | h
  · exact ⟨s, by simp [withSpan, hnone], hst⟩
  · rw [h.withSpan_eq]
    exact h

end Diagnostic.PointsInto

namespace Typing

open Check

/-! ## Expressions that fail -/

variable {e : Diagnostic} {home : String} {c d : Context}

/-- Every failure in an expression points into a range that its places lie in. -/
theorem restoring_failing (outer : Span) :
    Failing restoring (·.Within outer) (fun _ => True) (·.PointsInto outer) where
  toSolving := restoring_solving
  obeys h := h _ restoring_disciplined
  parameter _ _ := ⟨trivial, trivial⟩
  bound _ _ := trivial
  other _ := trivial
  application _ _ _ _ := trivial
  unification _ _ _ _ _ _ := trivial
  located _ hs := .of_withSpan (Or.inl rfl) hs
  again h := (congrArg (·.PointsInto outer) (h.withSpan_eq _)).mpr h
  message _ hs := ⟨_, rfl, hs⟩

/-- **An expression that cannot be typed fails inside its range.** -/
theorem infer_blames {outer : Span} {x : Expr} (hx : x.Inside outer) (h : infer home x c = (.error e, d)) :
    e.PointsInto outer :=
  (restoring_failing outer).infer home hx c trivial (fun _ _ => trivial) e d h

/-- A body that is not handed on is blamed at one of its nodes. -/
theorem handOff_blames {outer : Span} {a : Arena} {t : Ty} {body : TypedExpr}
    (hbody : body.AllNodes fun node => node.span.Within outer) (h : body.handOff a t = .error e) :
    e.PointsInto outer := by
  unfold handOff at h
  simp only [] at h
  split at h
  · cases h
  · rename_i node hnode
    cases h
    have hmem := mem_of_find?_eq_some hnode
    rw [nodes_mapTypes] at hmem
    obtain ⟨node', hnode', rfl⟩ := mem_map.mp hmem
    have hspan : (node'.mapTypes a.expose).span = node'.span := by cases node' <;> rfl
    exact .of_withSpan (Or.inl rfl) (hspan ▸ hbody node' hnode')

/-! ## Which declaration fails -/

variable {typed : List TypedExpr}

/-- The context that a declaration's body is typed in. -/
def announce (home : String) (x : Decl) (c : Context) : Context :=
  c.note .trace fun _ => "[decl] solving: " ++ (declared home x).text

/-- **The first declaration to fail** while bodies are typed in order, each against the variable of its
    declaration, and how. -/
inductive BodyFails (home : String) : List (Decl × Ty) → Context → Decl → Diagnostic → Prop where
  /-- The body cannot be typed. -/
  | body {x : Decl} {v : Ty} {rest : List (Decl × Ty)} {c d : Context} {e : Diagnostic} :
      infer home x.body (announce home x c) = (.error e, d) → BodyFails home ((x, v) :: rest) c x e
  /-- The body is typed, but not of the type of its declaration's variable. -/
  | expected {x : Decl} {v : Ty} {rest : List (Decl × Ty)} {c d d' : Context} {body : TypedExpr}
      {err : InferenceError} :
      infer home x.body (announce home x c) = (.ok body, d) → d.expect v body.type = (.error err, d') →
      BodyFails home ((x, v) :: rest) c x (err.diagnostic.withSpan (some x.span))
  /-- The declaration is fine, and one of the others fails. -/
  | later {x y : Decl} {v : Ty} {rest : List (Decl × Ty)} {c d d' : Context} {body : TypedExpr} {e : Diagnostic} :
      infer home y.body (announce home y c) = (.ok body, d) → d.expect v body.type = (.ok (), d') →
      BodyFails home rest d' x e → BodyFails home ((y, v) :: rest) c x e

/-- **How a group of declarations fails**, and with which of them: while its bodies are typed, or when they are
    handed on. The symbols of the group are forgotten before. -/
inductive GroupFails (home : String) (decls : List Decl) (c : Context) : Decl → Diagnostic → Prop where
  | typing {opened : Context} {members : List (Member (Body Diagnostic (List TypedExpr)))} {x : Decl}
      {e : Diagnostic} :
      openGroup (groupBodies home decls) ((decls.map (declared home)).foldl forget c) =
        (members, opened) →
      BodyFails home (decls.zip (members.map Member.type)) opened x e → GroupFails home decls c x e
  | handingOn {types : List Ty} {typed : List TypedExpr} {d : Context} {earlier later : List (Decl × Ty × TypedExpr)}
      {x : Decl} {t : Ty} {body : TypedExpr} {e : Diagnostic} :
      declareGroup diagnostic (groupBodies home decls) []
        ((decls.map (declared home)).foldl forget c) = (.ok types, typed, d) →
      decls.zip (types.zip typed) = earlier ++ (x, t, body) :: later →
      (∀ g ∈ earlier, ∃ done, g.2.2.handOff d.store.arena g.2.1 = .ok done) →
      body.handOff d.store.arena t = .error e → GroupFails home decls c x e

/-- **How a module fails**, and with which declaration: it declares a name again, or, with the names all different, it
    is the one to blame in the first group that fails. -/
inductive ProgramFails (p : Program) (c : Context) : Decl → Diagnostic → Prop where
  | duplicate {earlier later : List Decl} {x : Decl} :
      p.decls = earlier ++ x :: later → (earlier.map fun y => y.name.name).Nodup →
      x.name.name ∈ earlier.map (fun y => y.name.name) →
      ProgramFails p c x (.errorAt ("duplicate declaration `" ++ x.name.name ++ "`") x.name.span)
  | group {earlier later : List (List Nat)} {group : List Nat} {typed : List (Nat × TypedDecl)} {between : Context}
      {x : Decl} {e : Diagnostic} :
      (p.decls.map fun y => y.name.name).Nodup → (dependencies p.decls).groups = earlier ++ group :: later →
      checkGroups p.home p.decls earlier (c.addModule p.home) = (.ok typed, between) →
      GroupFails p.home (groupDecls p.decls group) between x e → ProgramFails p c x e

/-! ### The members of a group -/

variable {pairs : List (Decl × Ty)}

/-- A declaration with its variable, as a member of its group. -/
def memberOf (home : String) (p : Decl × Ty) : Member (Body Diagnostic (List TypedExpr)) :=
  ⟨declared home p.1, p.2, asBody (infer home p.1.body)⟩

/-- The members of a group are its declarations, each with its variable. -/
theorem openGroup_eq_map (home : String) (decls : List Decl) (c : Context) :
    (openGroup (groupBodies home decls) c).1 =
      (decls.zip ((openGroup (groupBodies home decls) c).1.map Member.type)).map (memberOf home) := by
  induction decls generalizing c with
  | nil => rfl
  | cons x rest ih =>
    have hrest := ih ((c.fresh.2.define (declared home x) c.fresh.1).pin c.fresh.1)
    exact congrArg (memberOf home (x, c.fresh.1) :: ·) hrest

/-- **The count of typed bodies leads to the declaration to blame.** A failure points somewhere if a body could not
    be typed; if it does not, the declaration is the one whose body was typed last. -/
theorem typeBodies_fails {typed' : List TypedExpr} (hplaced : ∀ p ∈ pairs, p.1.body.Inside p.1.span)
    (h : typeBodies diagnostic (pairs.map (memberOf home)) typed c = (.error e, typed', d)) :
    (∃ x, BodyFails home pairs c x e ∧ e.PointsInto x.span) ∨
      ∃ x v, typed.length < typed'.length ∧ pairs[typed'.length - typed.length - 1]? = some (x, v) ∧
        e.span = none ∧ BodyFails home pairs c x (e.withSpan (some x.span)) := by
  induction pairs generalizing c typed with
  | nil => cases h
  | cons p rest ih =>
    obtain ⟨x, v⟩ := p
    obtain ⟨hx, hrest⟩ := forall_mem_cons.mp hplaced
    rcases typeBodies_cons_error h with hbody | ⟨t, typed₁, inner, hbody, hcases⟩
    · have hfails := (asBody_error.mp hbody).1
      exact Or.inl ⟨x, .body hfails, infer_blames hx hfails⟩
    · obtain ⟨body, hinfer, rfl, rfl⟩ := asBody_ok.mp hbody
      rcases hcases with ⟨err, hexpect, rfl, rfl⟩ | ⟨expected, hexpect, hmore⟩
      · refine Or.inr ⟨x, v, by simp, by simp, rfl, .expected hinfer hexpect⟩
      · rcases ih hrest hmore with ⟨y, hfails, hpoints⟩ | ⟨y, w, hlt, hget, hnone, hfails⟩
        · exact Or.inl ⟨y, .later hinfer hexpect hfails, hpoints⟩
        · rw [length_append, length_singleton] at hlt hget
          refine Or.inr ⟨y, w, by omega, ?_, hnone, .later hinfer hexpect hfails⟩
          have hindex : typed'.length - typed.length - 1 = typed'.length - (typed.length + 1) - 1 + 1 := by omega
          rw [hindex, getElem?_cons_succ]
          exact hget

/-! ### Groups -/

variable {decls : List Decl}

theorem BodyFails.mem {x : Decl} (h : BodyFails home pairs c x e) : x ∈ pairs.map Prod.fst := by
  induction h with
  | body _ => exact mem_cons_self
  | expected _ _ => exact mem_cons_self
  | later _ _ _ ih => exact mem_cons_of_mem _ ih

/-- The variables of a group's declarations are as many. -/
theorem map_fst_members (home : String) (decls : List Decl) (c : Context) :
    (decls.zip ((openGroup (groupBodies home decls) c).1.map Member.type)).map Prod.fst = decls := by
  refine map_fst_zip (Nat.le_of_eq ?_)
  have hlength := congrArg List.length (openGroup_symbols (groupBodies home decls) c)
  simp only [groupBodies, length_map] at hlength
  rw [length_map, groupBodies, hlength]

/-- **Bodies that are typed have types**, where everything is ordinary. -/
theorem collectTypes_typed (hc : Keeping Ty.Ordinary c) {after : Context}
    (h : typeBodies diagnostic (openGroup (groupBodies home decls) c).1 [] (openGroup (groupBodies home decls) c).2 =
      (.ok (), typed, after))
    (symbol : Locator) : (collectTypes (openGroup (groupBodies home decls) c).1
      ((openGroup (groupBodies home decls) c).1.foldl (fun c m => c.unpin m.type) after)).1 ≠ .error symbol := by
  obtain ⟨hopened, hmembers⟩ := ordinary_kind.houses.openGroup (groupBodies home decls) hc
  obtain ⟨htyped, -⟩ := typeBodies_obeys ordinary_kind.toSolving diagnostic
    (fun m hm own d hd => by
      obtain ⟨e, hbody⟩ := body_of_mem_openGroup hm
      rw [hbody]
      exact asBody_obeys (ordinary_kind.houses.disciplined.infer_obeys home e) own d hd) [] _ hopened hmembers
  rw [h] at htyped
  have harena : ∀ (members : List (Member (Body Diagnostic (List TypedExpr)))) (d : Context),
      (members.foldl (fun c m => c.unpin m.type) d).store.arena = d.store.arena := by
    intro members
    induction members with
    | nil => exact fun _ => rfl
    | cons m rest ih => exact fun d => (ih _).trans (arena_unpin d m.type)
  obtain ⟨types, d, hcollect⟩ := collectTypes_ordinary
    (c := (openGroup (groupBodies home decls) c).1.foldl (fun c m => c.unpin m.type) after)
    (by rw [harena]; exact htyped.bindings) hmembers
  rw [hcollect]
  exact nofun

/-- **A group that fails is blamed on the declaration that fails**, and inside of it. -/
theorem checkGroup_fails (hc : KeepingCalm Ty.Ordinary c) (hplaced : ∀ x ∈ decls, x.body.Inside x.span)
    (h : checkGroup home decls c = (.error e, d)) : ∃ x ∈ decls, GroupFails home decls c x e ∧ e.PointsInto x.span := by
  have hforgotten := hc.forgetAll ordinary_kind (decls.map (declared home))
  unfold checkGroup at h
  simp only [] at h
  split at h
  · rename_i e' typed after hdeclare
    cases h
    rcases declareGroup_fails hdeclare with ⟨after, hbodies⟩ | ⟨after, symbol, hbodies, hcollect, -⟩
    · have hmembers := openGroup_eq_map home decls ((decls.map (declared home)).foldl forget c)
      have hdecls := map_fst_members home decls ((decls.map (declared home)).foldl forget c)
      generalize hopen : openGroup (groupBodies home decls)
        ((decls.map (declared home)).foldl forget c) = opened at hmembers hdecls
      obtain ⟨members, opened⟩ := opened
      simp only [] at hmembers hdecls
      have hbodies : typeBodies diagnostic
          ((decls.zip (members.map Member.type)).map (memberOf home)) [] opened = (.error e', typed, after) := by
        rw [← hmembers]
        simp only [groupBodies] at hopen
        simp only [hopen] at hbodies
        exact hbodies
      have hinside : ∀ p ∈ decls.zip (members.map Member.type), p.1.body.Inside p.1.span :=
        fun p hp => hplaced p.1 (of_mem_zip hp).1
      rcases typeBodies_fails hinside hbodies with ⟨x, hfails, hpoints⟩ | ⟨x, v, -, hget, hnone, hfails⟩
      · rw [hpoints.withSpan_eq]
        exact ⟨x, hdecls ▸ hfails.mem, .typing hopen hfails, hpoints⟩
      · have hx : decls[typed.length - 1]? = some x := by
          rw [length_nil, Nat.sub_zero] at hget
          exact (getElem?_zip_eq_some.mp hget).1
        rw [hx, Option.map_some]
        have hmem := mem_of_getElem? hx
        exact ⟨x, hmem, .typing hopen hfails,
          .of_withSpan (Or.inl hnone) (hplaced x hmem _ x.body.span_mem_places).around⟩
    · exact absurd hcollect (collectTypes_typed hforgotten.keeping hbodies symbol)
  · rename_i types typed after hdeclare
    split at h
    · cases h
    · rename_i e' hhand
      cases h
      obtain ⟨earlier, x, t, body, later, heq, hearlier, hfails⟩ := handOffAll_error hhand
      have hmem : (x, t, body) ∈ decls.zip (types.zip typed) := heq ▸ mem_append_right _ mem_cons_self
      have hx : x ∈ decls := (of_mem_zip hmem).1
      obtain ⟨_, _, -, -, -, -, hbodies⟩ := declareGroup_ok hforgotten.toCalm.orderly hdeclare
      obtain ⟨_, _, -, -, hinfer, -⟩ := forall₂_zip hbodies (mem_zip_zip hmem)
      exact ⟨x, hx, .handingOn hdeclare heq hearlier hfails, handOff_blames (infer_places (hplaced x hx) hinfer) hfails⟩

/-! ### Modules and expressions -/

/-- The first declaration of a name that was declared before, and what stands before it. -/
theorem duplicate?_eq_some {seen : List String} {x : Decl} (h : duplicate? seen decls = some x) :
    ∃ earlier later, decls = earlier ++ x :: later ∧ (earlier.map fun y => y.name.name).Nodup ∧
      (∀ y ∈ earlier, y.name.name ∉ seen) ∧ (x.name.name ∈ seen ∨ x.name.name ∈ earlier.map fun y => y.name.name) := by
  induction decls generalizing seen with
  | nil => cases h
  | cons y rest ih =>
    by_cases hseen : y.name.name ∈ seen
    · rw [duplicate?, if_pos (by simpa using hseen)] at h
      cases h
      exact ⟨[], rest, rfl, nodup_nil, by simp, Or.inl hseen⟩
    · rw [duplicate?, if_neg (by simpa using hseen)] at h
      obtain ⟨earlier, later, rfl, hnodup, hnew, hx⟩ := ih h
      have hother : y.name.name ∉ earlier.map fun z => z.name.name := by
        intro hmem
        obtain ⟨z, hz, hname⟩ := mem_map.mp hmem
        exact hnew z hz (hname ▸ mem_cons_self)
      refine ⟨y :: earlier, later, rfl, nodup_cons.mpr ⟨hother, hnodup⟩,
        forall_mem_cons.mpr ⟨hseen, fun z hz hmem => hnew z hz (mem_cons_of_mem _ hmem)⟩, ?_⟩
      rcases hx with hx | hx
      · rcases mem_cons.mp hx with hname | hx
        · exact Or.inr (hname ▸ mem_cons_self)
        · exact Or.inl hx
      · exact Or.inr (mem_cons_of_mem _ hx)

/-- **A module that fails is blamed on the declaration that fails**, and inside of it. -/
theorem checkProgram_fails {source : Nat} {p : Program} (hc : KeepingCalm Ty.Ordinary c)
    (hplaced : ∀ x ∈ p.decls, x.Placed source) (h : checkProgram p c = (.error e, d)) :
    ∃ x ∈ p.decls, ProgramFails p c x e ∧ e.PointsInto x.span := by
  cases hduplicate : duplicate? [] p.decls with
  | some x =>
    simp only [checkProgram, run_bind, run_modify] at h
    simp only [hduplicate] at h
    cases h
    obtain ⟨earlier, later, heq, hnodup, -, hx⟩ := duplicate?_eq_some hduplicate
    have hmem : x ∈ p.decls := heq ▸ mem_append_right _ mem_cons_self
    exact ⟨x, hmem, .duplicate heq hnodup (hx.resolve_left not_mem_nil), x.name.span, rfl, (hplaced x hmem).name⟩
  | none =>
    obtain ⟨hnames, -⟩ := duplicate?_eq_none_iff.mp hduplicate
    obtain ⟨earlier, group, later, typed, between, hgroups, hearlier, hgroup⟩ :=
      checkGroups_error (checkProgram_error hnames h)
    have hloaded : KeepingCalm Ty.Ordinary (c.addModule p.home) := hc.load (.program p)
    have hbetween := checkGroups_keeps p.home p.decls earlier (fun x _ hc => hc.checkGroup ordinary_kind p.home x)
      hloaded
    rw [hearlier] at hbetween
    obtain ⟨x, hx, hfails, hpoints⟩ :=
      checkGroup_fails hbetween (fun x hx => (hplaced x (mem_groupDecls hx)).body) hgroup
    exact ⟨x, mem_groupDecls hx, .group hnames hgroups hearlier hfails, hpoints⟩

/-- **An expression that fails is blamed inside of it.** -/
theorem checkExpr_fails {x : Expr} (hx : x.Inside x.span) (h : checkExpr x c = (.error e, d)) :
    e.PointsInto x.span := by
  rcases checkExpr_cause h with hrun | ⟨body, after, hrun, hhand⟩
  · exact infer_blames hx hrun
  · exact handOff_blames (infer_places hx hrun) hhand

end Typing

open Typing Grammar

/-- **Every type error points into what failed.** In every context that a session reaches: a module that was read and
    does not check is reported at a place of its own source, inside the declaration that fails, which is the first
    whose name was declared before, or whose body cannot be typed, is not of the type of its variable, or cannot be
    handed on. An expression that was read and does not check is reported at a place inside of it. -/
theorem type_errors_point_inside {c : Context} (hc : Reached c) (source : Nat) (text : String) :
    (∀ home p e, parseProgram source home text = .ok p → (checkProgram p c).1 = .error e →
      ∃ x ∈ p.decls, ProgramFails p c x e ∧ ∃ s, e.span = some s ∧ s.source = source ∧ s.Within x.span) ∧
    ∀ x e, parseExpr source text = .ok x → (checkExpr x c).1 = .error e →
      ∃ s, e.span = some s ∧ s.source = source ∧ s.Within x.span := by
  constructor
  · intro home p e hread he
    have hplaced := parseProgram_yields (decl_placed source) hread
    obtain ⟨x, hx, hfails, s, hs, hwithin⟩ :=
      checkProgram_fails (d := (checkProgram p c).2) hc.ordinary hplaced (Prod.ext he rfl)
    exact ⟨x, hx, hfails, s, hs, hwithin.source.trans (hplaced x hx).source, hwithin⟩
  · intro x e hread he
    obtain ⟨hsource, hinside⟩ := inside_of_parseExpr hread
    obtain ⟨s, hs, hwithin⟩ := checkExpr_fails (d := (checkExpr x c).2) hinside (Prod.ext he rfl)
    exact ⟨s, hs, hwithin.source.trans hsource, hwithin⟩

/-- The second declaration is typed, but it would have to be its own result: the comparison with its variable fails, and
    the declaration is blamed as a whole. -/
theorem type_errors_point_inside_endless_result :
    let text := "one = 1\nf = x -> f"
    let p : Program := ⟨"main", [⟨⟨"one", ⟨3, 0, 3⟩⟩, .literal ⟨3, 6, 7⟩ (.integer 1), ⟨3, 0, 7⟩⟩,
      ⟨⟨"f", ⟨3, 8, 9⟩⟩, .lambda ⟨3, 12, 18⟩ ⟨"x", ⟨3, 12, 13⟩⟩ (.name ⟨3, 17, 18⟩ ⟨none, "f"⟩), ⟨3, 8, 18⟩⟩]⟩
    let e : Diagnostic := (Diagnostic.errorAt "type mismatch: expected `'t3`, found `'t4 -> 't3`"
      ⟨3, 8, 18⟩).withInlineNote "expected 'a, found 'a -> 'b"
    parseProgram 3 "main" text = .ok p ∧ (checkProgram p (.new "main" false)).1 = .error e ∧
      ∃ x ∈ p.decls, ProgramFails p (.new "main" false) x e ∧
        ∃ s, e.span = some s ∧ s.source = 3 ∧ s.Within x.span := by
  intro text p e
  have hread : parseProgram 3 "main" text = .ok p := by decide +kernel
  have hfails : (checkProgram p (.new "main" false)).1 = .error e := by decide +kernel
  exact ⟨hread, hfails, (type_errors_point_inside (.new "main" false) 3 text).1 "main" p e hread hfails⟩

end UnionTyping
