import UnionTyping.Proofs.Plan

/-!
# `Proofs.Search` — trying alternatives, and what comparisons do to an arena

Alternatives are tried one by one, each from the same bindings. What makes this work is that a comparison
only binds variables (`Arena.Binds`), so that undoing an attempt gives the arena back as it was. Hence a
search ends on the arena it started from, and its outcome says what single attempts on that arena did
(`compareAlternatives_cases`).

The variables that several successes have in common are then bound one after the other
(`accrete_induction`); what they are bound to is read off the successes by `commonBindings`.

The last section shows that every comparison only binds variables, with no assumption on the types, the
arena or the definitions.
-/

namespace UnionTyping

open List

/-! ## Binding only -/

variable {id : Nat} {t : Ty}

/-- `b` is `a` with some variables bound, and no variable handed out. -/
structure Arena.Binds (a b : Arena) : Prop where
  grows : a.Extends b
  size_eq : b.size = a.size

namespace Arena.Binds

variable {a b : Arena}

theorem refl (a : Arena) : a.Binds a :=
  ⟨.refl a, rfl⟩

theorem trans {c : Arena} (hab : a.Binds b) (hbc : b.Binds c) : a.Binds c :=
  ⟨hab.grows.trans hbc.grows, hbc.size_eq.trans hab.size_eq⟩

theorem of_bind (h : a.bind? id t = .ok b) : a.Binds b :=
  ⟨.of_bind h, size_bind h⟩

theorem rollback (h : a.Binds b) : b.rollback a.snapshot = a :=
  rollback_eq h.grows h.size_eq

theorem name? (h : a.Binds b) (id : Nat) : b.name? id = a.name? id := by
  by_cases hid : id < a.size
  · exact h.grows.name? id hid
  · rw [name?_eq_none (by rw [h.size_eq]; omega), name?_eq_none (by omega)]

/-- The bindings made since, with their exposed values. -/
theorem mem_bindingsSince (h : a.Binds b) : (id, t) ∈ b.bindingsSince a.snapshot ↔
      a.binding? id = none ∧ ∃ u, b.binding? id = some u ∧ t = b.expose u := by
  unfold bindingsSince
  simp only [mem_filterMap, Option.map_eq_some_iff, Prod.mk.injEq]
  constructor
  · rintro ⟨i, hi, u, hu, rfl, rfl⟩
    exact ⟨(h.grows.mem_boundSince.mp hi).1, u, hu, rfl⟩
  · rintro ⟨hfree, u, hu, rfl⟩
    exact ⟨id, h.grows.mem_boundSince.mpr ⟨hfree, by rw [hu]; rfl⟩, u, hu, rfl, rfl⟩

end Arena.Binds

/-- Binding through the store either binds or changes no variable. -/
theorem Store.bind_cases (s : Store) (id : Nat) (t : Ty) :
    (∃ b, s.arena.bind? id t = .ok b ∧ (s.bind id t).1 = true ∧ (s.bind id t).2.arena = b) ∨
      (∀ b, s.arena.bind? id t ≠ .ok b) ∧ (s.bind id t).1 = false ∧ (s.bind id t).2.arena = s.arena := by
  unfold Store.bind
  cases h : s.arena.bind? id t with
  | ok b => exact Or.inl ⟨b, rfl, rfl, rfl⟩
  | error e => exact Or.inr ⟨nofun, rfl, rfl⟩

/-! ## Alternatives -/

variable {attempt : Attempt} {level : Nat} {alternatives : List Ty}

/-- A comparison with an alternative. -/
abbrev Attempt := Ty → Store → Option (Bool × Store)

/-- A success that trying an alternative on the arena has led to. -/
def Success.From (attempt : Attempt) (alternatives : List Ty) (a : Arena) (x : Success) : Prop :=
  x.alternative ∈ alternatives ∧ ∃ before after : Store, before.arena = a ∧
    attempt x.alternative before = some (true, after) ∧
    x.bindings = after.arena.bindingsSince a.snapshot

theorem Success.From.mono {ts us : List Ty} {a : Arena} {x : Success} (h : x.From attempt ts a)
    (hsub : ts ⊆ us) : x.From attempt us a :=
  ⟨hsub h.1, h.2⟩

/-- What a search has shown comes from trying the alternatives on the arena: one that needed no binding, or all the
    successes. -/
def Search.From (attempt : Attempt) (alternatives : List Ty) (a : Arena) : Search → Prop
  | .settled => ∃ t ∈ alternatives, ∃ before after : Store, before.arena = a ∧
      attempt t before = some (true, after) ∧ after.arena = a
  | .found successes => ∀ x ∈ successes, x.From attempt alternatives a

theorem Search.From.mono {ts us : List Ty} {a : Arena} {search : Search} (h : search.From attempt ts a)
    (hsub : ts ⊆ us) : search.From attempt us a := by
  cases search with
  | settled =>
    obtain ⟨t, ht, hrun⟩ := h
    exact ⟨t, hsub ht, hrun⟩
  | found successes => exact fun x hx => (h x hx).mono hsub

/-- **A search ends on the arena it started from**, and all it has shown comes from there. -/
theorem tryAlternatives_spec (hattempt : ∀ t s ok s', attempt t s = some (ok, s') → s.arena.Binds s'.arena)
    {search : Search} (h : tryAlternatives attempt alternatives s = some (search, s')) :
    s'.arena = s.arena ∧ search.From attempt alternatives s.arena := by
  induction alternatives generalizing s s' search with
  | nil =>
    cases h
    exact ⟨rfl, forall_mem_nil _⟩
  | cons t rest ih =>
    unfold tryAlternatives at h
    obtain ⟨⟨ok, tried⟩, htried, h⟩ := Option.bind_eq_some_iff.mp h
    have hbinds := hattempt t s ok tried htried
    simp only [] at h
    split at h
    · -- the attempt needed no binding
      rename_i hsettled
      rw [Bool.and_eq_true] at hsettled
      obtain ⟨rfl, hunchanged⟩ := hsettled
      have hsame : tried.arena = s.arena := hbinds.grows.eq_of_unchanged hbinds.size_eq hunchanged
      cases h
      exact ⟨hsame, t, mem_cons_self, s, _, rfl, htried, hsame⟩
    · obtain ⟨⟨searched, s₂⟩, hrest, h⟩ := Option.bind_eq_some_iff.mp h
      have hback : (tried.rollback s.arena.snapshot).arena = s.arena := hbinds.rollback
      obtain ⟨harena, hfrom⟩ := ih hrest
      rw [hback] at harena hfrom
      have hmore := hfrom.mono (subset_cons_self t rest)
      cases searched with
      | settled =>
        cases h
        exact ⟨harena, hmore⟩
      | found more =>
        simp only [] at h
        split at h
        · rename_i hok
          cases h
          exact ⟨harena, forall_mem_cons.mpr ⟨⟨mem_cons_self, s, tried, rfl, hok ▸ htried, rfl⟩, hmore⟩⟩
        · cases h
          exact ⟨harena, hmore⟩

/-- **What trying alternatives comes to**: nothing is bound, or one attempt is carried out, or what several
    successes have in common is bound. -/
theorem compareAlternatives_cases (hattempt : ∀ t s ok s', attempt t s = some (ok, s') → s.arena.Binds s'.arena)
    (h : compareAlternatives attempt level alternatives s = some (ok, s')) : s'.arena = s.arena ∨
    (∃ t ∈ alternatives, ∃ before : Store, before.arena = s.arena ∧ attempt t before = some (ok, s')) ∨
    (ok = true ∧ ∃ (first : Success) (rest : List Success) (before : Store) (count : Nat), before.arena = s.arena ∧
      (∀ x ∈ first :: rest, x.From attempt alternatives s.arena) ∧
      s' = accrete level count (commonBindings first rest) before) := by
  unfold compareAlternatives at h
  obtain ⟨⟨search, before⟩, hsearch, h⟩ := Option.bind_eq_some_iff.mp h
  obtain ⟨harena, hfound⟩ := tryAlternatives_spec hattempt hsearch
  match search, h, hfound with
  | .settled, h, _ =>
    cases h
    exact Or.inl harena
  | .found [], h, _ =>
    cases h
    exact Or.inl harena
  | .found [only], h, hfound =>
    have honly := hfound only mem_cons_self
    exact Or.inr (Or.inl ⟨only.alternative, honly.1, before, harena, h⟩)
  | .found (first :: second :: rest), h, hfound =>
    cases h
    exact Or.inr (Or.inr ⟨rfl, first, second :: rest, before, _, harena, hfound, rfl⟩)

/-! ## What several successes have in common -/

theorem exists_of_mapM {α β : Type} {f : α → Option β} {xs : List α} {ys : List β} (h : xs.mapM f = some ys) :
    (∀ x ∈ xs, ∃ y ∈ ys, f x = some y) ∧ ∀ y ∈ ys, ∃ x ∈ xs, f x = some y := by
  induction xs generalizing ys with
  | nil =>
    rw [mapM_nil] at h
    cases h
    exact ⟨by simp, by simp⟩
  | cons x xs ih =>
    rw [mapM_cons] at h
    obtain ⟨y, hy, h⟩ := Option.bind_eq_some_iff.mp h
    obtain ⟨zs, hzs, h⟩ := Option.bind_eq_some_iff.mp h
    cases h
    obtain ⟨hall, hback⟩ := ih hzs
    constructor
    · intro w hw
      rcases mem_cons.mp hw with rfl | hw
      · exact ⟨y, mem_cons_self, hy⟩
      · obtain ⟨z, hz, hf⟩ := hall w hw
        exact ⟨z, mem_cons_of_mem _ hz, hf⟩
    · intro z hz
      rcases mem_cons.mp hz with rfl | hz
      · exact ⟨x, mem_cons_self, hy⟩
      · obtain ⟨w, hw, hf⟩ := hback z hz
        exact ⟨w, mem_cons_of_mem _ hw, hf⟩

/-- A common variable is bound by every success, and its value is the union of the values there. -/
theorem mem_commonBindings {first : Success} {rest : List Success}
    (h : (id, t) ∈ commonBindings first rest) : (∀ x ∈ first :: rest, ∃ u, (id, u) ∈ x.bindings) ∧
      ∃ values, Ty.union? values = some t ∧ ∀ u ∈ values, ∃ x ∈ first :: rest, (id, u) ∈ x.bindings := by
  unfold commonBindings at h
  obtain ⟨⟨i, value⟩, hmem, h⟩ := mem_filterMap.mp h
  obtain ⟨values, hvalues, h⟩ := Option.bind_eq_some_iff.mp h
  obtain ⟨u, hu, h⟩ := Option.bind_eq_some_iff.mp h
  cases h
  obtain ⟨hall, hback⟩ := exists_of_mapM hvalues
  constructor
  · intro x hx
    rcases mem_cons.mp hx with rfl | hx
    · exact ⟨value, hmem⟩
    · obtain ⟨y, _, hy⟩ := hall x hx
      exact ⟨y, mem_of_lookup hy⟩
  · refine ⟨value :: values, hu, fun w hw => ?_⟩
    rcases mem_cons.mp hw with rfl | hw
    · exact ⟨first, mem_cons_self, hmem⟩
    · obtain ⟨x, hx, hf⟩ := hback w hw
      exact ⟨x, mem_cons_of_mem _ hx, mem_of_lookup hf⟩

/-- A property of arenas that each of the bindings passes on holds after all of them. -/
theorem accrete_induction {s : Store} (P : Arena → Prop) {count : Nat} {bindings : List (Nat × Ty)} (hs : P s.arena)
    (hstep : ∀ e ∈ bindings, ∀ a b, P a → a.bind? e.1 e.2 = .ok b → P b) :
    P (accrete level count bindings s).arena := by
  induction bindings generalizing s with
  | nil => exact hs
  | cons e rest ih =>
    obtain ⟨id, t⟩ := e
    refine ih ?_ fun e he => hstep e (mem_cons_of_mem _ he)
    rcases Store.bind_cases (s.note .trace fun _ =>
        indent level ++ "accrete: " ++ s.shown t ++ " from " ++ toString count ++ " alternatives")
        id t with ⟨b, hb, _, hb'⟩ | ⟨_, _, hsame⟩
    · rw [hb']
      exact hstep (id, t) mem_cons_self s.arena b hs hb
    · rw [hsame]
      exact hs

/-! ## Comparisons only bind -/

theorem bindTo_binds (v : TyVar) (t : Ty) (s : Store) : s.arena.Binds (bindTo v t s).2.arena := by
  unfold bindTo
  split
  · exact .refl _
  · rcases s.bind_cases v.id t with ⟨b, hb, _, hb'⟩ | ⟨_, _, hsame⟩
    · rw [hb']
      exact .of_bind hb
    · rw [hsame]
      exact .refl _

/-- The comparison only binds variables. -/
abbrev Comparison.Binding (compare : Comparison) : Prop :=
  compare.Meets fun _ _ s _ s' => s.arena.Binds s'.arena

/-- **A row of comparisons relates stores as each of them does**, by whatever is reflexive and transitive. -/
theorem compareAll_relates {R : Store → Store → Prop} (hrefl : ∀ s, R s s)
    (htrans : ∀ {s₁ s₂ s₃}, R s₁ s₂ → R s₂ s₃ → R s₁ s₃) {next : Comparison} {pairs : List (Ty × Ty)}
    (hpairs : ∀ p ∈ pairs, ∀ s ok s', next p.1 p.2 level s = some (ok, s') → R s s')
    (h : compareAll next level verdict pairs s = some (ok, s')) : R s s' := by
  induction pairs generalizing s with
  | nil =>
    cases h
    exact hrefl _
  | cons p ps ih =>
    obtain ⟨⟨ok₁, s₁⟩, hfirst, h⟩ := Option.bind_eq_some_iff.mp h
    obtain ⟨hp, hps⟩ := forall_mem_cons.mp hpairs
    have hstep := hp s ok₁ s₁ hfirst
    simp only [] at h
    split at h
    · exact htrans hstep (ih hps h)
    · cases h
      exact hstep

theorem compareAll_binds {next : Comparison} (hnext : next.Binding) {pairs : List (Ty × Ty)}
    (h : compareAll next level verdict pairs s = some (ok, s')) : s.arena.Binds s'.arena :=
  compareAll_relates (R := fun s s' => s.arena.Binds s'.arena) (fun _ => .refl _) .trans
    (fun p _ s => hnext p.1 p.2 level s) h

theorem compareAlternatives_binds (hattempt : ∀ t s ok s', attempt t s = some (ok, s') → s.arena.Binds s'.arena)
    (h : compareAlternatives attempt level alternatives s = some (ok, s')) : s.arena.Binds s'.arena := by
  rcases compareAlternatives_cases hattempt h with
    hsame | ⟨t, _, before, hbefore, ht⟩ | ⟨_, first, rest, before, count, hbefore, _, rfl⟩
  · exact hsame ▸ .refl _
  · exact hbefore ▸ hattempt t before ok s' ht
  · rw [← hbefore]
    exact accrete_induction before.arena.Binds (.refl _) fun e _ a b ha hb => ha.trans (.of_bind hb)

theorem compareStep_binds {defs : Definitions} {next : Comparison} (hnext : next.Binding) :
    (compareStep defs next).Binding := by
  intro l r level s ok s' h
  rcases compareStep_cases h with ⟨_, _, hsame⟩ | ⟨_, before, after, hbefore, hafter, hrun⟩
  · exact hsame ▸ .refl _
  · rw [hafter, ← hbefore]
    cases hplan : plan defs s.arena (s.arena.follow l) (s.arena.follow r) with
    | decide verdict =>
      rw [hplan] at hrun
      cases hrun
      exact .refl _
    | bind v t =>
      rw [hplan] at hrun
      injection hrun with hrun
      have hbind := bindTo_binds v t before
      rw [hrun] at hbind
      exact hbind
    | all pairs verdict =>
      rw [hplan] at hrun
      exact compareAll_binds hnext hrun
    | any pair alternatives =>
      rw [hplan] at hrun
      exact compareAlternatives_binds (fun t s ok s' h => hnext _ _ _ s ok s' h) hrun

/-- **A comparison only binds variables**, whatever it compares and however it ends. -/
theorem compareWithin_binds (defs : Definitions) (unbound : Nat) : (compareWithin defs unbound).Binding :=
  compareWithin_meets (fun _ => compareStep_binds) unbound

/-- **What unification does to an arena.** A success binds variables; anything else leaves the arena as it
    was. -/
theorem Store.unify_binds (s : Store) (defs : Definitions) (l r : Ty) :
    s.arena.Binds (s.unify defs l r).2.arena ∧
      ((s.unify defs l r).1 ≠ .unified → (s.unify defs l r).2.arena = s.arena) := by
  unfold Store.unify
  split
  · rename_i after h
    exact ⟨compareWithin_binds _ _ _ _ _ _ _ _ h, fun hne => absurd rfl hne⟩
  · rename_i after h
    have hback : (after.rollback s.arena.snapshot).arena = s.arena :=
      (compareWithin_binds _ _ _ _ _ _ _ _ h).rollback
    exact ⟨by rw [hback]; exact .refl _, fun _ => hback⟩
  · exact ⟨.refl _, fun _ => rfl⟩

end UnionTyping
