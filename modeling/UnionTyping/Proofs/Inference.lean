import UnionTyping.Proofs.Scopes
import UnionTyping.Proofs.WellFormed

/-!
# `Proofs.Inference` — typing binds its own variables only

While something is typed, the variables that were handed out before it began are not to be bound: they
belong to symbols that are already typed. Those that are handed out from then on, with numbers from `n` on,
are its *own*. Typing an expression keeps to its own variables (`owning_disciplined`), for three reasons:

* what is pinned consists of own variables, also when seen through bindings;
* looking a symbol up copies every variable that is not pinned, so the copy consists of own variables,
  whatever the symbol's type consists of;
* the solver binds no variables but those of the types it is given, and those it hands out itself.
-/

namespace UnionTyping

open List Regime

/-- **The arena grows with its own variables**: it keeps what it had, and binds only variables from the number
    on. -/
structure Arena.Advances (n : Nat) (a b : Arena) : Prop where
  grows : a.Extends b
  own : ∀ id, a.binding? id = none → (b.binding? id).isSome → n ≤ id
  acyclic : a.Acyclic → b.Acyclic

namespace Arena.Advances

variable {n : Nat} {a b : Arena}

theorem refl (a : Arena) : Advances n a a :=
  ⟨.refl a, fun _ hnone hsome => absurd hsome (by simp [hnone]), fun h => h⟩

theorem trans {c : Arena} (hab : Advances n a b) (hbc : Advances n b c) : Advances n a c := by
  refine ⟨hab.grows.trans hbc.grows, fun id hnone hsome => ?_, fun h => hbc.acyclic (hab.acyclic h)⟩
  cases hb : b.binding? id with
  | none => exact hbc.own id hb hsome
  | some t => exact hab.own id hnone (by rw [hb]; rfl)

theorem mono {m : Nat} (h : Advances n a b) (hmn : m ≤ n) : Advances m a b :=
  ⟨h.grows, fun id hnone hsome => Nat.le_trans hmn (h.own id hnone hsome), h.acyclic⟩

theorem of_keeps (h : (owned n).Keeps a b) : Advances n a b := by
  refine ⟨h.grows, fun id hnone hsome => ?_, h.acyclic (owned_coherent n)⟩
  obtain ⟨v, hv, rfl⟩ := h.inside id hnone hsome
  exact hv.2

/-- **What is bound before is not bound anew**, so older variables have the bindings they had. -/
theorem binding?_old (h : Advances n a b) {id : Nat} (hid : id < n) : b.binding? id = a.binding? id := by
  cases ha : a.binding? id with
  | some t => exact h.grows.binding? ha
  | none =>
    cases hb : b.binding? id with
    | none => rfl
    | some t =>
      have := h.own id ha (by rw [hb]; rfl)
      omega

end Arena.Advances

theorem Arena.Owns.mono {a b : Arena} (h : a.Extends b) {t : Ty} (ht : a.Owns t) : b.Owns t :=
  fun v hv => by rw [h.name? _ (Arena.lt_size_of_name? (ht v hv)), ht v hv]

/-- The candidates of a symbol are in the scopes. -/
theorem Environment.mem_candidates {e : Environment} {l : Locator} {t : Ty} (h : t ∈ e.candidates l) :
    ∃ s ∈ e.scopes, ∃ entry ∈ s.symbols, t ∈ entry.2 := by
  cases l with
  | «variable» x =>
    obtain ⟨ts, hfind, ht⟩ : ∃ ts, e.scopes.findSome? (·.get? (.variable x)) = some ts ∧ t ∈ ts := by
      change t ∈ (e.scopes.findSome? (·.get? (.variable x))).getD [] at h
      cases hfind : e.scopes.findSome? (·.get? (.variable x)) with
      | none =>
        rw [hfind] at h
        cases h
      | some ts =>
        rw [hfind] at h
        exact ⟨ts, rfl, h⟩
    obtain ⟨s, hs, hget⟩ := exists_of_findSome?_eq_some hfind
    exact ⟨s, hs, _, mem_of_lookup hget, ht⟩
  | declaration home x =>
    obtain ⟨ts, hts, ht⟩ := mem_flatten.mp h
    obtain ⟨s, hs, hget⟩ := mem_filterMap.mp hts
    exact ⟨s, mem_reverse.mp hs, _, mem_of_lookup hget, ht⟩

theorem Environment.forall_candidates {e : Environment} {l : Locator} {P : Ty → Prop}
    (h : ∀ s ∈ e.scopes, ∀ entry ∈ s.symbols, ∀ t ∈ entry.2, P t) : ∀ t ∈ e.candidates l, P t := by
  intro t ht
  obtain ⟨s, hs, entry, hentry, ht⟩ := mem_candidates ht
  exact h s hs entry hentry t ht

/-- A pinned number is that of a free variable of a pinned type. -/
theorem Environment.mem_pinnedIds {e : Environment} {a : Arena} {id : Nat} (h : id ∈ e.pinnedIds a) :
    ∃ s ∈ e.scopes, ∃ t ∈ s.pinned, ∃ v ∈ (a.expose t).vars, v.id = id := by
  obtain ⟨t, ht, h⟩ := mem_flatMap.mp (mem_eraseDups.mp h)
  obtain ⟨v, hv, hid⟩ := mem_map.mp h
  obtain ⟨ts, hts, ht⟩ := mem_flatten.mp ht
  obtain ⟨s, hs, rfl⟩ := mem_map.mp hts
  exact ⟨s, mem_reverse.mp hs, t, mem_reverse.mp ht, v, mem_eraseDups.mp hv, hid⟩

namespace Typing

open Check

/-! ## Own variables -/

/-- **The state while something is typed**: the symbols are of owned types, what is pinned is the typing's
    own, and neither ownership nor own variables are left through bindings and definitions. -/
structure Scoped (n : Nat) (c : Context) : Prop where
  own : (owned n).Holds c.definitions c.store.arena
  whole : (owned 0).Holds c.definitions c.store.arena
  symbols : ∀ s ∈ c.environment.scopes, ∀ e ∈ s.symbols, ∀ t ∈ e.2, c.store.arena.Owns t
  pinned : ∀ s ∈ c.environment.scopes, ∀ t ∈ s.pinned, t.In ((owned n).fragment c.store.arena)

/-- Typing restores scopes, binds own variables and gives types made of them. -/
def owning (n : Nat) : Discipline Context Ty where
  Inv := Scoped n
  Step c d := restoring.Step c d ∧ c.store.arena.Advances n d.store.arena
  Out c t := t.In ((owned n).fragment c.store.arena)
  refl c := ⟨restoring.refl c, .refl _⟩
  trans h h' := ⟨restoring.trans h.1 h'.1, h.2.trans h'.2⟩
  mono h ht := ht.mono ((owned _).grow h.2.grows)

variable {n : Nat} {c d : Context}

/-- What owns its own variables is owned. -/
theorem owns_of_own {a : Arena} {t : Ty} (h : t.In ((owned n).fragment a)) : t.In ((owned 0).fragment a) :=
  in_owned_zero.mpr (in_owned.mp h).1

/-- The state after a step of the solver, which leaves the scopes alone. -/
theorem Scoped.of_keeps (hc : Scoped n c) (hstep : restoring.Step c d)
    (hown : (owned n).Keeps c.store.arena d.store.arena)
    (hwhole : (owned 0).Keeps c.store.arena d.store.arena) :
    Scoped n d ∧ (owning n).Step c d := by
  refine ⟨⟨?_, ?_, ?_, ?_⟩, hstep, .of_keeps hown⟩
  · rw [hstep.2]
    exact hown.holds hc.own
  · rw [hstep.2]
    exact hwhole.holds hc.whole
  · rw [hstep.1]
    exact fun s hs e he t ht => (hc.symbols s hs e he t ht).mono hown.grows
  · rw [hstep.1]
    exact fun s hs t ht => hown.in (hc.pinned s hs t ht)

/-- The state in a scope inside. -/
theorem Scoped.inner (hc : Scoped n c) {s : Scope} (henv : d.environment = ⟨s, c.environment.scopes⟩)
    (hgrows : c.store.arena.Extends d.store.arena)
    (hown : (owned n).Holds d.definitions d.store.arena)
    (hwhole : (owned 0).Holds d.definitions d.store.arena)
    (hsymbols : ∀ e ∈ s.symbols, ∀ t ∈ e.2, d.store.arena.Owns t)
    (hpinned : ∀ t ∈ s.pinned, t.In ((owned n).fragment d.store.arena)) : Scoped n d := by
  refine ⟨hown, hwhole, ?_, ?_⟩
  · rw [henv]
    intro s' hs' e he t ht
    rcases mem_cons.mp hs' with rfl | hs'
    · exact hsymbols e he t ht
    · exact (hc.symbols s' hs' e he t ht).mono hgrows
  · rw [henv]
    intro s' hs' t ht
    rcases mem_cons.mp hs' with rfl | hs'
    · exact hpinned t ht
    · exact (hc.pinned s' hs' t ht).mono ((owned n).grow hgrows)

/-- The state once an inner scope is closed: the scopes are as before, the variables as inside. -/
theorem Scoped.outer (hc : Scoped n c) {inner : Context} (hinner : Scoped n inner)
    (hgrows : c.store.arena.Advances n inner.store.arena) (harena : d.store.arena = inner.store.arena)
    (hstep : restoring.Step c d) (hdefs : inner.definitions = c.definitions) :
    Scoped n d ∧ (owning n).Step c d := by
  have hdefs : d.definitions = inner.definitions := hstep.2.trans hdefs.symm
  refine ⟨⟨?_, ?_, ?_, ?_⟩, hstep, harena ▸ hgrows⟩
  · rw [harena, hdefs]
    exact hinner.own
  · rw [harena, hdefs]
    exact hinner.whole
  · rw [hstep.1, harena]
    exact fun s hs e he t ht => (hc.symbols s hs e he t ht).mono hgrows.grows
  · rw [hstep.1, harena]
    exact fun s hs t ht => (hc.pinned s hs t ht).mono ((owned n).grow hgrows.grows)

/-! ## Steps of the solver -/

theorem Scoped.unify (hc : Scoped n c) {l r : Ty} (hl : (owning n).Out c l) (hr : (owning n).Out c r) :
    Scoped n (c.unify l r).2 ∧ (owning n).Step c (c.unify l r).2 :=
  hc.of_keeps ⟨rfl, rfl⟩ (unify_keeps hc.own hl hr) (unify_keeps hc.whole (owns_of_own hl) (owns_of_own hr))

theorem Scoped.apply (hc : Scoped n c) {f a : Ty} (hf : (owning n).Out c f) (ha : (owning n).Out c a) :
    Scoped n (c.apply f a).2 ∧ (owning n).Step c (c.apply f a).2 ∧
      ∀ t, (c.apply f a).1 = .ok t → (owning n).Out (c.apply f a).2 t := by
  obtain ⟨hown, hout⟩ := apply_keeps hc.own hf ha
  have hwhole := (apply_keeps hc.whole (owns_of_own hf) (owns_of_own ha)).1
  obtain ⟨hscoped, hstep⟩ : Scoped n (c.apply f a).2 ∧ (owning n).Step c (c.apply f a).2 :=
    hc.of_keeps ⟨rfl, rfl⟩ hown hwhole
  exact ⟨hscoped, hstep, hout⟩

/-- **A symbol that is looked up** is copied into own variables. -/
theorem Scoped.lookup (hc : Scoped n c) (l : Locator) :
    Scoped n (c.typeOf l).2 ∧ (owning n).Step c (c.typeOf l).2 ∧
      ∀ t, (c.typeOf l).1 = .ok t → (owning n).Out (c.typeOf l).2 t := by
  obtain ⟨arena, hcontext, hgrows, hsame, hfound⟩ := c.typeOf_spec l
  have harena : (c.typeOf l).2.store.arena = arena := by rw [hcontext]
  have hkeeps : ∀ m, (owned m).Holds c.definitions c.store.arena → (owned m).Keeps c.store.arena arena :=
    fun m hm => .of_same hm.closed hgrows hsame
  have hown := hkeeps n hc.own
  obtain ⟨hscoped, hstep⟩ := hc.of_keeps (typeOf_restores c l) (harena ▸ hown) (harena ▸ hkeeps 0 hc.whole)
  refine ⟨hscoped, hstep, fun t ht => ?_⟩
  change t.In ((owned n).fragment (c.typeOf l).2.store.arena)
  rw [harena]
  rcases typeOf_cases c.environment c.store.arena l with ⟨_, h⟩ | ⟨copies, k, hcopy, h⟩
  · cases h.symm.trans (hfound t ht)
  · obtain ⟨hunion, rfl⟩ := Prod.mk.inj (h.symm.trans (hfound t ht))
    obtain ⟨_, hcopies⟩ := Copying.run_copyAll hc.whole.closed
      (Environment.forall_candidates fun s hs e he u hu => in_owned_zero.mpr (hc.symbols s hs e he u hu)) hcopy
    refine Ty.In.of_union? trivial (fun _ hmem => ?_) hunion
    obtain ⟨u, hu, rfl⟩ := mem_map.mp hmem
    refine hown.closed.expose (in_owned.mpr ⟨fun v hv => ?_, fun v hv => ?_⟩)
    · rcases hcopies u hu v hv with ⟨_, hname, _⟩ | ⟨_, hname⟩
      · rw [hown.grows.name? _ (Arena.lt_size_of_name? hname), hname]
      · exact hname
    · rcases hcopies u hu v hv with ⟨hpinned, _⟩ | ⟨hsize, _⟩
      · -- What is not copied is free in a pinned type, hence own.
        obtain ⟨s, hs, p, hp, w, hw, hid⟩ := Environment.mem_pinnedIds hpinned
        exact hid ▸ ((hc.own.closed.expose (hc.pinned s hs p hp)).vars hw).2
      · exact Nat.le_trans hc.own.base hsize

/-- **The solver keeps to own variables.** -/
theorem owning_solving (n : Nat) : Solving (owning n) where
  simple _ _ := Ty.in_simple
  func _ _ _ ha hr := Ty.in_func.mpr ⟨ha, hr⟩
  union? _ _ _ hts h := Ty.In.of_union? trivial hts h
  expose _ _ hc ht := hc.own.closed.expose ht
  note _ _ _ _ hc := ⟨⟨hc.own, hc.whole, hc.symbols, hc.pinned⟩, ⟨rfl, rfl⟩, .refl _⟩
  lookup _ l hc := hc.lookup l
  unify _ _ _ hc hl hr := hc.unify hl hr
  apply _ _ _ hc hf ha := hc.apply hf ha

/-! ## Scopes inside -/

/-- **A scope with a fresh pinned variable**, that of a parameter or of a local name. -/
theorem Scoped.openParameter (hc : Scoped n c) (x : Ident) :
    Scoped n (openParameter x c).2 ∧ (owning n).Out (openParameter x c).2 (openParameter x c).1 ∧
      c.store.arena.Advances n (openParameter x c).2.store.arena := by
  obtain ⟨hown, hin⟩ := fresh_keeps hc.own
  have hwhole := (fresh_keeps hc.whole).1
  refine ⟨hc.inner rfl hown.grows (hown.holds hc.own) (hwhole.holds hc.whole) ?_ ?_, hin, .of_keeps hown⟩
  · intro e he t ht
    rw [mem_singleton.mp he] at ht
    rw [mem_singleton.mp ht]
    exact (in_owned.mp hin).1
  · intro t ht
    rw [mem_singleton.mp ht]
    exact hin

/-- Releasing a type does not touch the arena. -/
theorem arena_unpin (c : Context) (t : Ty) : (c.unpin t).store.arena = c.store.arena := by
  unfold Context.unpin
  split <;> rfl

/-- Closing the scope of a parameter does not touch the arena. -/
theorem arena_closeParameter (v : Ty) (c : Context) : (closeParameter v c).store.arena = c.store.arena :=
  arena_unpin c v

/-- A local name, in the scope of its own, once its value is typed. -/
theorem Scoped.boundValue (hc : Scoped n c) (x : Ident) {value : Check TypedExpr}
    (hvalue : value.Obeys (owning n) [] typeOnly) :
    Scoped n (boundValue x value c.enter).2 ∧
      (∃ s, (boundValue x value c.enter).2.environment = ⟨s, c.environment.scopes⟩ ∧
        (boundValue x value c.enter).2.definitions = c.definitions) ∧
      c.store.arena.Advances n (boundValue x value c.enter).2.store.arena := by
  obtain ⟨hopen, hvar, hadvance⟩ := hc.openParameter x
  obtain ⟨htyped, hstep⟩ := typeValue_obeys (owning_solving n) hvalue hopen hvar
  have hgrows := hadvance.trans hstep.2
  have hvar := in_owned.mp ((owning n).mono hstep hvar)
  obtain ⟨journal, hok | ⟨_, hfailed⟩⟩ := boundValue_cases x value rfl hstep.1.1
  · rw [hok]
    refine ⟨hc.inner rfl hgrows.grows htyped.own htyped.whole ?_ ?_, ⟨_, rfl, hstep.1.2⟩, hgrows⟩
    · intro e he t ht
      rw [mem_singleton.mp he] at ht
      rw [mem_singleton.mp ht]
      exact hvar.1
    · exact fun t ht => absurd ht not_mem_nil
  · rw [hfailed]
    refine ⟨hc.inner rfl hgrows.grows htyped.own htyped.whole ?_ ?_, ⟨_, rfl, hstep.1.2⟩, hgrows⟩
    · simp
    · simp

/-- **Typing keeps to its own variables.** -/
theorem owning_disciplined (n : Nat) : Disciplined (owning n) where
  toSolving := owning_solving n
  parameter := by
    intro x body hbody
    refine parameter_obeys x hbody fun c hc => ?_
    obtain ⟨hopen, hvar, hadvance⟩ := hc.openParameter x
    refine ⟨hvar, hopen, fun d hd hstep => ?_⟩
    obtain ⟨hscoped, hclosed⟩ := hc.outer hd (hadvance.trans hstep.2) (arena_closeParameter _ _)
      (closeParameter_open x c d hstep.1) hstep.1.2
    refine ⟨hscoped, hclosed, fun t ht => ?_⟩
    change t.In ((owned n).fragment (closeParameter _ d).store.arena)
    rw [arena_closeParameter]
    exact ht
  binding := by
    intro span x value body hvalue hbody
    refine binding_obeys span x hbody fun c hc => ?_
    obtain ⟨hbound, ⟨s, hscopes⟩, hadvance⟩ := hc.boundValue x hvalue
    refine ⟨hbound, fun d hd hstep => ?_⟩
    obtain ⟨hscoped, hclosed⟩ := hc.outer (d := d.leave) hd (hadvance.trans hstep.2) rfl
      (leave_restores hscopes hstep.1) (hstep.1.2.trans hscopes.2)
    exact ⟨hscoped, hclosed, fun t ht => ht⟩

end Typing

end UnionTyping
