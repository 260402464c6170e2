import UnionTyping.Proofs.Lockstep
import UnionTyping.Proofs.Warnings

/-!
# `Proofs.Counterparts` — one declaration in two contexts

A declaration is typed in two contexts that have different histories. They need not agree on everything: what counts
are the symbols that the declaration uses. If these mean the same in both contexts up to the variables
(`Context.Agree`), then the declaration succeeds in the second context if it does in the first one, and its own symbol
means the same afterwards (`checkGroup_follows`).

What a symbol means is settled when it is declared. So contexts that agree on a symbol go on to do so while others are
declared, on either side, and have done so since it was declared (`Isolates.agree_iff`). This is what makes the order
of the others irrelevant.
-/

namespace UnionTyping

open List Context Environment Arena Ty

open Arena (Mirrors Twins)

/-! ## Familiar types -/

variable {t : Ty} {a : Arena}

/-- **An arena that binds some variables alike mirrors them too**, if their values have no others in them. -/
theorem Arena.Mirrors.below {R : TyVar → TyVar → Prop} {a' b : Arena} (h : Mirrors R a b) (ha' : a'.Acyclic) {n : Nat}
    (hsame : ∀ id < n, a'.binding? id = a.binding? id)
    (hclosed : ∀ id t, id < n → a'.binding? id = some t → ∀ v ∈ t.vars, v.id < n) :
    Mirrors (fun v w => R v w ∧ v.id < n) a' b := by
  refine ⟨⟨fun h₁ h₂ => h.pairing.left h₁.1 h₂.1, fun h₁ h₂ => h.pairing.right h₁.1 h₂.1⟩, ?_, ha', h.rightAcyclic⟩
  rintro v w ⟨hvw, hv⟩
  rcases h.bindings.binding_cases hvw with ⟨hleft, hright⟩ | ⟨t, u, hleft, hright, htu⟩
  · rw [hsame v.id hv, hleft, hright]
    exact .none
  · have hvars := hclosed v.id t hv ((hsame v.id hv).trans hleft)
    rw [hsame v.id hv, hleft, hright]
    exact .some (htu.restrictLeft.mono fun x _ hxy => ⟨hxy.1, hvars x hxy.2⟩)

namespace Familiar

variable {b : Arena} {ts us : List Ty}

theorem symm (h : Familiar a b ts us) : Familiar b a us ts := by
  obtain ⟨R, hmirrors, hbounds, hts⟩ := h
  exact ⟨flip R, hmirrors.symm, fun v w hvw => (hbounds w v hvw).symm, hts.flip.imp fun _ _ h => h.symm⟩

/-- **Types stay familiar in another arena** that binds their variables alike. -/
theorem transfer {a' : Arena} (h : Familiar a b ts us) (ha' : a'.Acyclic) {n : Nat} (hn : n ≤ a'.size)
    (hsame : ∀ id < n, a'.binding? id = a.binding? id)
    (hclosed : ∀ id t, id < n → a'.binding? id = some t → ∀ v ∈ t.vars, v.id < n)
    (hts : ∀ t ∈ ts, ∀ v ∈ t.vars, v.id < n) : Familiar a' b ts us := by
  obtain ⟨R, hmirrors, hbounds, halike⟩ := h
  refine ⟨_, hmirrors.below ha' hsame hclosed, fun v w hvw => ?_, forall₂_of_mem halike fun t ht u htu => ?_⟩
  · exact ⟨Nat.lt_of_lt_of_le hvw.2 hn, (hbounds v w hvw.1).2⟩
  · exact htu.restrictLeft.mono fun v _ hvw => ⟨hvw.1, hts t ht v hvw.2⟩

end Familiar

/-- **Types that are alike are familiar** where they and all bindings are owned. -/
theorem Arena.Mirrors.familiar {R : TyVar → TyVar → Prop} {b : Arena} (h : Mirrors R a b) (ha : a.WellFormed)
    (hb : b.WellFormed) {u : Ty} (ht : a.Owns t) (hu : b.Owns u) (htu : Ty.Alike R t u) : Familiar a b [t] [u] := by
  have hleft := h.below ha.acyclic (n := a.size) (fun _ _ => rfl) fun id t _ ht v hv =>
    lt_size_of_name? (ha.owned id t ht v hv)
  have hright := hleft.symm.below hb.acyclic (n := b.size) (fun _ _ => rfl) fun id u _ hu w hw =>
    lt_size_of_name? (hb.owned id u hu w hw)
  refine ⟨_, hright.symm, fun v w hvw => ⟨hvw.1.2, hvw.2⟩, .cons (htu.restrict.mono fun v w hvw => ?_) .nil⟩
  obtain ⟨hvw, hv, hw⟩ := hvw
  exact ⟨⟨hvw, lt_size_of_name? (ht v hv)⟩, lt_size_of_name? (hu w hw)⟩

/-! ## Contexts that agree on a symbol -/

/-- **The symbol means the same in both contexts**, up to the variables. -/
def Context.Agree (c c' : Context) (l : Locator) : Prop :=
  Familiar c.store.arena c'.store.arena (c.environment.candidates l) (c'.environment.candidates l)

/-- Whether the type is one with a name of its own, or stands for one. -/
def Ty.isNamed : Ty → Bool
  | .record _ _ _ => true
  | .algebraic _ _ _ => true
  | .recursive _ _ => true
  | _ => false

/-- Types are like themselves, apart from those with names. -/
theorem Ty.alike_self {R : TyVar → TyVar → Prop} (h : ∀ u ∈ t.subterms, u.isNamed = false) (hR : ∀ v ∈ t.vars, R v v) :
    Ty.Alike R t t := by
  have hpart : ∀ {t child : Ty}, child ∈ t.children → (∀ u ∈ t.subterms, u.isNamed = false) →
      ∀ u ∈ child.subterms, u.isNamed = false :=
    fun hchild h => (forall_subterms_iff.mp h).2 _ hchild
  induction t using structural with
  | simple n => exact .simple n
  | func a r ha hr =>
    have ha' : a ∈ (func a r).children := by simp [children]
    have hr' : r ∈ (func a r).children := by simp [children]
    exact .func (ha (hpart ha' h) fun v hv => hR v (mem_vars_of_child ha' hv))
      (hr (hpart hr' h) fun v hv => hR v (mem_vars_of_child hr' hv))
  | record n as fs => exact Bool.noConfusion (h _ (self_mem_subterms _))
  | algebraic n as os => exact Bool.noConfusion (h _ (self_mem_subterms _))
  | recursive n as => exact Bool.noConfusion (h _ (self_mem_subterms _))
  | union ms hms =>
    refine .union (forall₂_same.mpr fun m hm => hms m hm (hpart (t := .union ms) hm h) fun v hv => ?_)
    exact hR v (mem_vars_of_child hm hv)
  | var v => exact .var (hR v mem_cons_self)

namespace Typing

open Check

variable {c c' d : Context}

/-- **A new context agrees with itself** on all symbols. -/
theorem new_agree (home : String) (tracing : Bool) (l : Locator) : (new home tracing).Agree (.new home tracing) l := by
  have hsettled := new_settled home tracing
  have hsymbols : ∀ e ∈ (new "" false).environment.innermost.symbols, ∀ t ∈ e.2, ∀ u ∈ t.subterms,
      u.isNamed = false := by decide +kernel
  have hcoherent := Regime.owned_coherent 0 (new home tracing).store.arena
  -- every variable is its own counterpart
  refine ⟨fun v w => v = w ∧ (new home tracing).store.arena.name? v.id = some v.name,
    ⟨⟨?_, ?_⟩, fun v w _ => ?_, hsettled.arena.acyclic, hsettled.arena.acyclic⟩, ?_, ?_⟩
  · rintro v v' w w' ⟨rfl, hv⟩ ⟨rfl, hv'⟩ hid
    exact and_self_iff.mpr (hcoherent v v' ⟨hv, Nat.zero_le _⟩ ⟨hv', Nat.zero_le _⟩ hid)
  · rintro v v' w w' ⟨rfl, hv⟩ ⟨rfl, hv'⟩ hid
    exact and_self_iff.mpr (hcoherent v v' ⟨hv, Nat.zero_le _⟩ ⟨hv', Nat.zero_le _⟩ hid)
  · rw [binding?_new, binding?_new]
    exact .none
  · rintro v w ⟨rfl, hv⟩
    exact ⟨lt_size_of_name? hv, lt_size_of_name? hv⟩
  · refine forall₂_same.mpr fun t ht => alike_self ?_ fun v hv => ⟨rfl, hsettled.owns_candidates ht v hv⟩
    obtain ⟨e, he, ht⟩ := hsettled.mem_candidates ht
    exact hsymbols e he t ht

/-- **Whether contexts agree on a symbol does not change** while others are declared. -/
theorem Isolates.agree_iff {symbols : List Locator} {l : Locator} (h : Isolates symbols c d) (hc : Settled c)
    (hl : l ∉ symbols) :
    d.Agree c' l ↔ c.Agree c' l := by
  unfold Agree
  rw [h.candidates l hl]
  have hold : ∀ id < c.store.arena.size, d.store.arena.binding? id = c.store.arena.binding? id :=
    fun id hid => h.advances.binding?_old hid
  have hclosed : ∀ id t, c.store.arena.binding? id = some t → ∀ v ∈ t.vars, v.id < c.store.arena.size :=
    fun id t ht v hv => lt_size_of_name? (hc.arena.owned id t ht v hv)
  have howned : ∀ t ∈ c.environment.candidates l, ∀ v ∈ t.vars, v.id < c.store.arena.size :=
    fun t ht v hv => lt_size_of_name? (hc.owns_candidates ht v hv)
  constructor
  · exact fun hagree => hagree.transfer hc.arena.acyclic (Nat.le_refl _) (fun id hid => (hold id hid).symm)
      (fun id t _ ht => hclosed id t ht) howned
  · exact fun hagree => hagree.transfer h.settled.arena.acyclic h.advances.grows.size_le hold
      (fun id t hid ht => hclosed id t ((hold id hid).symm.trans ht)) howned

/-! ## Modules -/

/-- **Typing an expression loads no module.** -/
theorem infer_modules {home : String} {e : Expr} {typed : TypedExpr} (h : infer home e c = (.ok typed, d)) :
    d.modules = c.modules := by
  have hstep := (reporting_disciplined.infer_obeys home e c trivial fun _ _ => trivial).2.1.2.2
  rwa [h] at hstep

/-! ## One declaration -/

variable {done : List TypedDecl} {home : String} {x : Decl}

/-- The context in which a declaration is typed, and the variable of its symbol there. -/
def openDecl (home : String) (x : Decl) (c : Context) : Ty × Context :=
  let (v, c) := (c.forget (declared home x)).fresh
  (v, (c.define (declared home x) v).pin v)

/-- The context once the declaration is typed. -/
def closeDecl (home : String) (x : Decl) (v : Ty) (c : Context) : Context :=
  (c.unpin v).note .debug fun _ => (declared home x).text ++ " : " ++ (c.expose v).generalizedText

/-- **How a declaration that succeeds is typed**: its body is, the type can be that of the symbol's variable, it is
    some type at all, and the body can be handed on. -/
structure Declares (home : String) (x : Decl) (c : Context) (typed body : TypedExpr) (inner after : Context) :
    Prop where
  infer : infer home x.body ((openDecl home x c).2.note .trace fun _ =>
    "[decl] solving: " ++ (declared home x).text) = (.ok typed, inner)
  expect : inner.expect (openDecl home x c).1 typed.type = (.ok (), after)
  some : after.decompose (openDecl home x c).1 ≠ []
  handOff : typed.handOff after.store.arena (after.expose (openDecl home x c).1) = .ok body

/-- The body of the only declaration of a group is typed, and its type is that of the variable. -/
theorem typeBodies_sole {v : Ty} {opened after : Context} {own : List TypedExpr} :
    typeBodies InferenceError.diagnostic [⟨declared home x, v, asBody (infer home x.body)⟩] [] opened =
        (.ok (), own, after) ↔
      ∃ typed inner, infer home x.body (opened.note .trace fun _ => "[decl] solving: " ++ (declared home x).text) =
        (.ok typed, inner) ∧ inner.expect v typed.type = (.ok (), after) ∧ own = [typed] := by
  rw [typeBodies_cons_ok]
  constructor
  · rintro ⟨t, own₁, inner, expected, hbody, hexpect, hrest⟩
    obtain ⟨typed, hinfer, rfl, rfl⟩ := asBody_ok.mp hbody
    cases hrest
    exact ⟨typed, inner, hinfer, hexpect, rfl⟩
  · rintro ⟨typed, inner, hinfer, hexpect, rfl⟩
    exact ⟨_, _, inner, after, asBody_ok.mpr ⟨typed, hinfer, rfl, rfl⟩, hexpect, rfl⟩

theorem handOffAll_sole {typed : TypedExpr} : handOffAll a home [(x, t, typed)] = .ok done ↔
      ∃ body, typed.handOff a t = .ok body ∧ done = [⟨declared home x, t, body, x.span⟩] := by
  simp only [handOffAll, bind, Except.bind, pure, Except.pure]
  cases typed.handOff a t with
  | error e => simp
  | ok body => simp [eq_comm]

/-- **A declaration on its own succeeds** if it can be typed so. -/
theorem checkGroup_sole : checkGroup home [x] c = (.ok done, d) ↔
    ∃ typed body inner after, Declares home x c typed body inner after ∧
      done = [⟨declared home x, after.expose (openDecl home x c).1, body, x.span⟩] ∧
      d = closeDecl home x (openDecl home x c).1 after := by
  have hopen : openGroup [(declared home x, asBody (infer home x.body))] (c.forget (declared home x)) =
      ([⟨declared home x, (openDecl home x c).1, asBody (infer home x.body)⟩], (openDecl home x c).2) := rfl
  have hexpose : ∀ after : Context, (after.unpin (openDecl home x c).1).expose (openDecl home x c).1 =
      after.expose (openDecl home x c).1 := fun after => congrArg (Arena.expose · _) (arena_unpin after _)
  have hdecompose : ∀ after : Context, (after.unpin (openDecl home x c).1).decompose (openDecl home x c).1 =
      after.decompose (openDecl home x c).1 := fun after => congrArg (Arena.decompose · _) (arena_unpin after _)
  unfold checkGroup declareGroup
  simp only [map_cons, map_nil, foldl_cons, foldl_nil, hopen]
  constructor
  · intro h
    cases hrun : typeBodies InferenceError.diagnostic
        [⟨declared home x, (openDecl home x c).1, asBody (infer home x.body)⟩] [] (openDecl home x c).2 with
    | mk outcome rest =>
      obtain ⟨own, after⟩ := rest
      rw [hrun] at h
      cases outcome with
      | error e => cases h
      | ok _ =>
        obtain ⟨typed, inner, hinfer, hexpect, rfl⟩ := typeBodies_sole.mp hrun
        simp only [collectTypes, hdecompose, hexpose] at h
        by_cases hempty : after.decompose (openDecl home x c).1 = []
        · rw [if_pos (List.isEmpty_iff.mpr hempty)] at h
          cases h
        · rw [if_neg (mt List.isEmpty_iff.mp hempty)] at h
          simp only [zip_cons_cons, zip_nil_left] at h
          split at h
          · rename_i done' hhand
            cases h
            have hhand := (congrArg (handOffAll · home _) (arena_unpin after _).symm).trans hhand
            obtain ⟨body, hbody, rfl⟩ := handOffAll_sole.mp hhand
            exact ⟨typed, body, inner, after, ⟨hinfer, hexpect, hempty, hbody⟩, rfl, rfl⟩
          · cases h
  · rintro ⟨typed, body, inner, after, h, rfl, rfl⟩
    have hrun := typeBodies_sole.mpr ⟨typed, inner, h.infer, h.expect, rfl⟩
    simp only [hrun, collectTypes, hdecompose, hexpose]
    rw [if_neg (mt List.isEmpty_iff.mp h.some)]
    have hhand := (congrArg (handOffAll · home _) (arena_unpin after (openDecl home x c).1)).trans
      ((handOffAll_sole (x := x)).mpr ⟨body, h.handOff, rfl⟩)
    simp only [zip_cons_cons, zip_nil_left]
    split
    · rename_i done hdone
      cases hdone.symm.trans hhand
      rfl
    · rename_i e hfailed
      cases hfailed.symm.trans hhand

/-- A symbol that is declared anew has its variable as the only candidate. -/
theorem candidates_redeclare {e : Environment} (he : e.outer = []) (l : Locator) (v : Ty) (k : Locator) :
    ((e.forget l).define l v).candidates k = if k = l then [v] else e.candidates k := by
  have hforget : e.Changes [l] (fun _ => True) (e.forget l) := .forget he mem_cons_self
  have hchanges := hforget.trans (.define hforget.after mem_cons_self (t := v) trivial)
  split
  · rename_i heq
    rw [heq, candidates_of_outer hchanges.after]
    exact congrArg (Option.getD · []) (Scope.get?_define_self (Scope.get?_forget_self _ _))
  · rename_i hne
    exact hchanges.candidates (mt mem_singleton.mp hne)

theorem isDefined_redeclare (e : Environment) (l : Locator) (v : Ty) (k : Locator) :
    ((e.forget l).define l v).isDefined k = (decide (k = l) || e.isDefined k) := by
  rw [isDefined_define]
  by_cases h : k = l
  · rw [decide_eq_true h, Bool.true_or, Bool.true_or]
  · rw [isDefined_forget _ _ _ h]

theorem candidates_pin (e : Environment) (t : Ty) (k : Locator) : (e.pin t).candidates k = e.candidates k := by
  cases k with
  | «variable» x => rfl
  | declaration home x =>
    simp only [candidates, scopes, Environment.pin, reverse_cons, filterMap_append, filterMap_cons, Scope.get?]

theorem candidates_openDecl (hc : Settled c) (k : Locator) : (openDecl home x c).2.environment.candidates k =
    if k = declared home x then [(openDecl home x c).1] else c.environment.candidates k :=
  (candidates_pin _ _ k).trans (candidates_redeclare hc.outer _ _ k)

theorem pinnedTypes_openDecl (hc : Settled c) :
    (openDecl home x c).2.environment.pinnedTypes = [(openDecl home x c).1] := by
  have hscopes : (openDecl home x c).2.environment.scopes = [(openDecl home x c).2.environment.innermost] := by
    change _ :: c.environment.outer.map _ = _
    rw [hc.outer]
    rfl
  have hinner : (openDecl home x c).2.environment.innermost.pinned =
      (openDecl home x c).1 :: c.environment.innermost.pinned := rfl
  rw [pinnedTypes, hscopes, reverse_singleton, map_singleton, flatten_singleton, hinner, hc.pinned, reverse_singleton]

/-- **Opening a declaration in both contexts** puts them in step, if they agree on the other symbols that count. -/
theorem openDecl_inStep {L : Vocabulary} (hc : Settled c) (hc' : Settled c') (hmodules : c.modules = c'.modules)
    (hdefined : ∀ k, L.symbols k → k ≠ declared home x → c.environment.isDefined k = c'.environment.isDefined k)
    (hagree : ∀ k, L.symbols k → k ≠ declared home x → c.Agree c' k) :
    Ty.Alike (c.store.arena.Twin c'.store.arena) (openDecl home x c).1 (openDecl home x c').1 ∧
      (openDecl home x c).2.InStep c.store.arena c'.store.arena L (openDecl home x c').2 := by
  have hstart : Twins c.store.arena c'.store.arena c.store.arena c'.store.arena :=
    ⟨.refl _ _, hc.arena.acyclic, hc'.arena.acyclic⟩
  have hvar : Ty.Alike (c.store.arena.Twin c'.store.arena) (openDecl home x c).1 (openDecl home x c').1 :=
    .var hstart.twin_fresh
  refine ⟨hvar, hstart.fresh, hmodules, fun k hk => ?_, fun k hk => ?_, ?_⟩
  · have hopen : ∀ c : Context, (openDecl home x c).2.environment.isDefined k =
        (decide (k = declared home x) || c.environment.isDefined k) := fun c => isDefined_redeclare _ _ _ k
    rw [hopen, hopen]
    by_cases hown : k = declared home x
    · rw [decide_eq_true hown, Bool.true_or, Bool.true_or]
    · rw [hdefined k hk hown]
  · rw [candidates_openDecl hc, candidates_openDecl hc']
    split
    · exact Or.inl (.cons hvar .nil)
    · rename_i hother
      exact Or.inr (hagree k hk hother)
  · rw [pinnedTypes_openDecl hc, pinnedTypes_openDecl hc']
    exact .cons hvar .nil

namespace Declares

variable {typed body : TypedExpr} {inner after : Context} (h : Declares home x c typed body inner after)
include h

theorem environment : (closeDecl home x (openDecl home x c).1 after).environment =
    (c.environment.forget (declared home x)).define (declared home x) (openDecl home x c).1 := by
  have hafter : after.environment = ((c.environment.forget (declared home x)).define (declared home x)
      (openDecl home x c).1).pinAll [(openDecl home x c).1] :=
    (expect_environment h.expect).trans (infer_environment h.infer)
  unfold closeDecl
  rw [unpin_of_pinned mem_cons_self hafter, erase_cons_head]
  rfl

theorem candidates (hc : Settled c) :
    (closeDecl home x (openDecl home x c).1 after).environment.candidates (declared home x) =
      [(openDecl home x c).1] := by
  rw [h.environment, candidates_redeclare hc.outer, if_pos rfl]

theorem modules : (closeDecl home x (openDecl home x c).1 after).modules = c.modules := by
  have hinner : inner.modules = c.modules := (infer_modules h.infer :)
  have hafter : after.modules = inner.modules := by
    have hstate := congrArg Context.modules (inner.expect_state (openDecl home x c).1 typed.type)
    rwa [h.expect] at hstate
  exact (after.modules_unpin _).trans (hafter.trans hinner)

end Declares

/-- **A declaration that succeeds in one context succeeds in the other one**, if the contexts agree on the symbols that
    it uses; they then agree on its own. -/
theorem checkGroup_follows {L : Vocabulary} (hc : Settled c) (hc' : Settled c') (hmodules : c.modules = c'.modules)
    (hknown : x.body.Known home L [])
    (hdefined : ∀ k, L.symbols k → k ≠ declared home x → c.environment.isDefined k = c'.environment.isDefined k)
    (hagree : ∀ k, L.symbols k → k ≠ declared home x → c.Agree c' k) (hrun : checkGroup home [x] c = (.ok done, d)) :
    ∃ done' d', checkGroup home [x] c' = (.ok done', d') ∧ d.Agree d' (declared home x) := by
  obtain ⟨typed, body, inner, after, hdecl, rfl, rfl⟩ := checkGroup_sole.mp hrun
  obtain ⟨hvar, hopen⟩ := openDecl_inStep hc hc' hmodules hdefined hagree
  -- the bodies are typed in step, and so is all that follows
  obtain ⟨typed', inner', hinfer', halike, hinner⟩ :=
    infer_follows hknown (fun _ hmem => absurd hmem not_mem_nil) (hopen.note _ _ _ _) hdecl.infer
  obtain ⟨after', hexpect', hafter⟩ := hinner.expect hvar halike.type hdecl.expect
  obtain ⟨body', hhand', -⟩ :=
    TypedExpr.handOff_follows hafter.twins.mirrors (hafter.expose hvar) halike hdecl.handOff
  have hdecl' : Declares home x c' typed' body' inner' after' :=
    ⟨hinfer', hexpect', hafter.decompose hvar hdecl.some, hhand'⟩
  have hrun' := checkGroup_sole.mpr ⟨typed', body', inner', after', hdecl', rfl, rfl⟩
  refine ⟨_, _, hrun', ?_⟩
  -- variables that are twins have become old by the end
  have hd := (hc.checkGroup hrun).settled
  have hd' := (hc'.checkGroup hrun').settled
  have howned := fun t => hd.owns_candidates (l := declared home x) (t := t)
  have howned' := fun t => hd'.owns_candidates (l := declared home x) (t := t)
  rw [hdecl.candidates hc] at howned
  rw [hdecl'.candidates hc'] at howned'
  have hmirrors : Mirrors (c.store.arena.Twin c'.store.arena) (closeDecl home x (openDecl home x c).1 after).store.arena
      (closeDecl home x (openDecl home x c').1 after').store.arena := by
    have hclose : ∀ v (c : Context), (closeDecl home x v c).store.arena = c.store.arena :=
      fun v c => arena_unpin c v
    rw [hclose, hclose]
    exact hafter.twins.mirrors
  rw [Agree, hdecl.candidates hc, hdecl'.candidates hc']
  exact hmirrors.familiar hd.arena hd'.arena (howned _ mem_cons_self) (howned' _ mem_cons_self) hvar

end Typing
end UnionTyping
