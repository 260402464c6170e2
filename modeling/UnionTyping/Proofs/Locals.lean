import UnionTyping.Proofs.Inference
import UnionTyping.Proofs.Outcome
import UnionTyping.Proofs.Solutions

/-!
# `Proofs.Locals` — local names, and what looking them up can give

While a closed expression is typed, the scopes around its parts have one local name each, a parameter or a
local binding. `Standing` says so of a context. A parameter is pinned, and so is the name of a binding inside
its own value; behind it the name is free to be copied.

Nothing tells a polymorphic name from a monomorphic one but what its type can become while the pinned types
stay as they are (`Attains`). Looking a name up gives exactly those types (`Standing.lookup`).
-/

namespace UnionTyping

open List TyVar

/-! ## Scopes with one name each -/

variable {l : Local} {L : Locals} {x : String} {p : Ty}

/-- A local name with its type, and whether the type is pinned. -/
structure Local where
  name : String
  type : Ty
  pinned : Bool

/-- The scope of a local name. -/
def Local.scope (l : Local) : Scope :=
  ⟨[(.variable l.name, [l.type])], if l.pinned then [l.type] else []⟩

/-- The local names, the innermost first. -/
abbrev Locals := List Local

namespace Locals

/-- The local that a name refers to. -/
def visible? (L : Locals) (x : String) : Option Local :=
  L.find? fun l => l.name = x

/-- The pinned types. -/
def pins (L : Locals) : List Ty :=
  (L.filter Local.pinned).map Local.type

theorem mem_of_visible (h : L.visible? x = some l) : l ∈ L :=
  mem_of_find?_eq_some h

theorem mem_pins : p ∈ L.pins ↔ ∃ l ∈ L, l.pinned = true ∧ l.type = p := by
  simp [pins, and_assoc]

theorem visible?_cons (L : Locals) (l : Local) (x : String) :
    visible? (l :: L) x = if x = l.name then some l else L.visible? x := by
  rw [visible?, find?_cons]
  by_cases h : x = l.name
  · simp [h]
  · simp [h, Ne.symm h, visible?]

end Locals

namespace Environment

/-- The scopes of the local names stand around one that has no variables and pins nothing. -/
def HasLocals (e : Environment) (L : Locals) : Prop :=
  ∃ base : Scope, (∀ x, base.get? (.variable x) = none) ∧ base.pinned = [] ∧
    e.scopes = L.map Local.scope ++ [base]

variable {e : Environment}

theorem HasLocals.cons {f : Environment} (h : e.HasLocals L) (hf : f.scopes = l.scope :: e.scopes) :
    f.HasLocals (l :: L) := by
  obtain ⟨base, hvariables, hpinned, hscopes⟩ := h
  exact ⟨base, hvariables, hpinned, by rw [hf, hscopes]; rfl⟩

theorem get?_scope (l : Local) (x : String) :
    l.scope.get? (.variable x) = if x = l.name then some [l.type] else none := by
  rw [Scope.get?, Local.scope, lookup_cons_ite, lookup_nil]
  simp

/-- **A name means the innermost local that has it.** -/
theorem HasLocals.findSome? (h : e.HasLocals L) (x : String) :
    e.scopes.findSome? (·.get? (.variable x)) = (L.visible? x).map fun l => [l.type] := by
  obtain ⟨base, hvariables, -, hscopes⟩ := h
  rw [hscopes]
  clear hscopes
  induction L with
  | nil => simp [hvariables, Locals.visible?]
  | cons l L ih =>
    rw [map_cons, cons_append, findSome?_cons, get?_scope, Locals.visible?_cons]
    by_cases hx : x = l.name
    · simp [hx]
    · simp [hx, ih]

theorem HasLocals.candidates (h : e.HasLocals L) (hx : L.visible? x = some l) :
    e.candidates (.variable x) = [l.type] := by
  rw [Environment.candidates, h.findSome?, hx]
  rfl

theorem HasLocals.isDefined (h : e.HasLocals L) (hx : L.visible? x = some l) : e.isDefined (.variable x) = true := by
  have hfind := h.findSome? x
  rw [hx] at hfind
  obtain ⟨s, hs, hget⟩ := exists_of_findSome?_eq_some hfind
  exact any_eq_true.mpr ⟨s, hs, by rw [hget]; rfl⟩

theorem mem_pinned_scope : p ∈ l.scope.pinned ↔ l.pinned = true ∧ l.type = p := by
  rw [Local.scope]
  cases l.pinned <;> simp [eq_comm]

theorem HasLocals.mem_pinnedTypes (h : e.HasLocals L) : p ∈ e.pinnedTypes ↔ p ∈ L.pins := by
  obtain ⟨base, -, hpinned, hscopes⟩ := h
  rw [pinnedTypes, hscopes, Locals.mem_pins]
  simp only [mem_flatten, mem_map, mem_reverse, mem_append, mem_singleton]
  constructor
  · rintro ⟨_, ⟨s, ⟨l, hl, rfl⟩ | rfl, rfl⟩, hp⟩
    · exact ⟨l, hl, mem_pinned_scope.mp (mem_reverse.mp hp)⟩
    · simp [hpinned] at hp
  · rintro ⟨l, hl, hp⟩
    exact ⟨_, ⟨l.scope, Or.inl ⟨l, hl, rfl⟩, rfl⟩, mem_reverse.mpr (mem_pinned_scope.mpr hp)⟩

/-- A number is pinned if it is that of a variable of a pinned type. -/
theorem HasLocals.mem_pinnedIds (h : e.HasLocals L) {a : Arena} {id : Nat} :
    id ∈ e.pinnedIds a ↔ ∃ p ∈ L.pins, ∃ v ∈ (a.expose p).vars, v.id = id := by
  simp [pinnedIds, Arena.freeVars, h.mem_pinnedTypes]

end Environment

open Arena Typing

/-- A parameter, or the name of a local binding inside its own value. -/
def Local.parameter (x : Ident) (c : Context) : Local := ⟨x.name, (openParameter x c).1, true⟩

/-- The name of a local binding behind its value. -/
def Local.bound (x : Ident) (c : Context) : Local := ⟨x.name, (openParameter x c).1, false⟩

/-! ## Contexts with local names -/

/-- **The state while a part of a closed expression is typed**: the scopes are those of the local names, and
    only first-order types occur. -/
structure Standing (L : Locals) (c : Context) : Prop where
  locals : c.environment.HasLocals L
  regular : c.store.arena.Regular
  types : ∀ l ∈ L, l.type.In c.store.arena.firstOrder

/-- **A part was typed**: the state is as before, in a later arena, and there is a first-order type. -/
structure Typed (L : Locals) (c d : Context) (t : Ty) : Prop where
  standing : Standing L d
  refines : c.store.arena.Refines d.store.arena
  type : t.In d.store.arena.firstOrder

/-- **The type can become another one** while the pinned types stay what the solution makes of them. -/
def Attains (L : Locals) (a : Arena) (σ : TyVar → Ty) (t r : Ty) : Prop :=
  ∃ τ, a.Solution τ ∧ (∀ p ∈ L.pins, p.subst τ = p.subst σ) ∧ t.subst τ = r

namespace Standing

variable {v : TyVar} {c d : Context} {σ τ : TyVar → Ty} {t r : Ty}

theorem pin_in (hc : Standing L c) (hp : p ∈ L.pins) : p.In c.store.arena.firstOrder := by
  obtain ⟨l, hl, -, rfl⟩ := Locals.mem_pins.mp hp
  exact hc.types l hl

/-- The state after a step that leaves the scopes alone. -/
theorem later (hc : Standing L c) (henv : d.environment = c.environment) (hregular : d.store.arena.Regular)
    (hrefines : c.store.arena.Refines d.store.arena) : Standing L d :=
  ⟨henv ▸ hc.locals, hregular, fun l hl => hrefines.in (hc.types l hl)⟩

/-- The state in a scope inside. -/
theorem inner (hc : Standing L c) (henv : d.environment.scopes = l.scope :: c.environment.scopes)
    (hregular : d.store.arena.Regular) (hrefines : c.store.arena.Refines d.store.arena)
    (hl : l.type.In d.store.arena.firstOrder) : Standing (l :: L) d := by
  refine ⟨hc.locals.cons henv, hregular, forall_mem_cons.mpr ⟨hl, fun l hl => ?_⟩⟩
  exact hrefines.in (hc.types l hl)

/-- A variable with a pinned number is one of a pinned type. -/
theorem exists_pin (hc : Standing L c) (hv : c.store.arena.firstOrder.vars v)
    (hid : v.id ∈ c.environment.pinnedIds c.store.arena) :
    ∃ p ∈ L.pins, p.In c.store.arena.firstOrder ∧ v ∈ (c.store.arena.expose p).vars := by
  obtain ⟨p, hp, w, hw, hid⟩ := hc.locals.mem_pinnedIds.mp hid
  have hpin := hc.pin_in hp
  obtain rfl : w = v := c.store.arena.firstOrder_firstOrder.coherent w v
    ((hc.regular.closed.expose hpin).vars hw) hv hid
  exact ⟨p, hp, hpin, hw⟩

/-- **A variable of a pinned type** is given the same by solutions that agree on pinned types. -/
theorem eq_of_pinned (hc : Standing L c) (hσ : c.store.arena.Solution σ) (hτ : c.store.arena.Solution τ)
    (hpins : ∀ p ∈ L.pins, p.subst τ = p.subst σ) (hv : c.store.arena.firstOrder.vars v)
    (hid : v.id ∈ c.environment.pinnedIds c.store.arena) : τ v = σ v := by
  obtain ⟨p, hp, hpin, hmem⟩ := hc.exists_pin hv hid
  refine (firstOrder_of_in (hc.regular.closed.expose hpin)).eq_of_subst_eq ?_ hmem
  rw [hτ.expose hc.regular hpin, hσ.expose hc.regular hpin, hpins p hp]

/-- What a variable of a pinned type is given is part of what the pinned type becomes. -/
theorem mem_vars_pinned (hc : Standing L c) (hσ : c.store.arena.Solution σ) {w : TyVar}
    (hv : c.store.arena.firstOrder.vars v) (hid : v.id ∈ c.environment.pinnedIds c.store.arena) (hw : w ∈ (σ v).vars) :
    w ∈ L.pins.flatMap fun p => (p.subst σ).vars := by
  obtain ⟨p, hp, hpin, hmem⟩ := hc.exists_pin hv hid
  refine mem_flatMap.mpr ⟨p, hp, ?_⟩
  rw [← hσ.expose hc.regular hpin]
  exact Ty.mem_vars_subst.mpr ⟨v, hmem, hw⟩

section Lookup

variable {b : Arena} {ρ : TyVar → TyVar} (hc : Standing L c) (ht : t.In c.store.arena.firstOrder)
  (hρ : c.store.arena.Renaming b (c.environment.pinnedIds c.store.arena) (c.store.arena.expose t) ρ)
include hc ht hρ

/-- A copy is made of pinned variables and new ones. -/
theorem copy_in : ((c.store.arena.expose t).rename ρ).In b.firstOrder := by
  have hexposed := hc.regular.closed.expose ht
  refine in_firstOrder (fun w hw => ?_) ((firstOrder_of_in hexposed).rename ρ)
  obtain ⟨v, hv, rfl⟩ := Ty.mem_vars_rename.mp hw
  by_cases hid : v.id ∈ c.environment.pinnedIds c.store.arena
  · rw [hρ.kept v hid]
    exact hρ.grows.name? _ (lt_size_of_name? (hexposed.vars hv)) ▸ hexposed.vars hv
  · exact (hρ.fresh v hv hid).2

/-- Whatever becomes of a copy can become of the original. -/
theorem attains_of_copy (hτ : b.Solution τ) :
    Attains L c.store.arena τ t (((c.store.arena.expose t).rename ρ).subst τ) := by
  have hold : c.store.arena.Solution τ := (solution_of_same hρ.grows hρ.same).mp hτ
  have hF := c.store.arena.firstOrder_firstOrder
  refine ⟨c.store.arena.extend fun v => τ (ρ v), hc.regular.solution_extend fun v => hτ.plain _, fun p hp => ?_, ?_⟩
  · -- the variables of a pinned type are not renamed
    have hpin := hc.pin_in hp
    rw [subst_extend hF hc.regular _ hpin, ← hold.expose hc.regular hpin]
    refine Ty.subst_congr fun v hv => ?_
    rw [hρ.kept v (hc.locals.mem_pinnedIds.mpr ⟨p, hp, v, hv, rfl⟩)]
  · rw [subst_extend hF hc.regular _ ht, (firstOrder_of_in (hc.regular.closed.expose ht)).subst_rename]

/-- Whatever can become of the original can become of a copy. -/
theorem copy_of_attains (hσ : c.store.arena.Solution σ) (h : Attains L c.store.arena σ t r) :
    ∃ τ, c.store.arena.Continues b σ τ ∧ ((c.store.arena.expose t).rename ρ).subst τ = r := by
  obtain ⟨υ, hυ, hpins, rfl⟩ := h
  have hexposed := hc.regular.closed.expose ht
  let Copied (v : TyVar) : Prop :=
    v ∈ (c.store.arena.expose t).vars ∧ v.id ∉ c.environment.pinnedIds c.store.arena
  have hinjective : Function.Injective fun v : { v // Copied v } => ρ v := by
    rintro ⟨v, hv, hvid⟩ ⟨w, hw, hwid⟩ heq
    refine Subtype.ext (c.store.arena.firstOrder_firstOrder.coherent v w (hexposed.vars hv) (hexposed.vars hw) ?_)
    exact hρ.injective v hv w hw hvid hwid heq
  -- the new variables are given what the originals are given, all others what they were given before
  let τ : TyVar → Ty := Function.extend (fun v : { v // Copied v } => ρ v) (fun v => υ v) σ
  have hnew : ∀ v, Copied v → τ (ρ v) = υ v := fun v hv => hinjective.extend_apply _ σ ⟨v, hv⟩
  have hother : ∀ w, (¬∃ v : { v // Copied v }, ρ v = w) → τ w = σ w :=
    fun w => Function.extend_apply' _ σ w
  have hold : ∀ w, c.store.arena.firstOrder.vars w → τ w = σ w := by
    refine fun w hw => hother w ?_
    rintro ⟨⟨v, hv, hid⟩, rfl⟩
    exact absurd (hρ.fresh v hv hid).1 (Nat.not_le.mpr (lt_size_of_name? hw))
  have hplain : Plain τ := by
    intro w
    by_cases hw : ∃ v : { v // Copied v }, ρ v = w
    · obtain ⟨⟨v, hv⟩, rfl⟩ := hw
      exact hnew v hv ▸ hυ.plain v
    · exact hother w hw ▸ hσ.plain w
  refine ⟨τ, hσ.continues hc.regular hρ.grows hρ.same hplain hold, ?_⟩
  rw [(firstOrder_of_in hexposed).subst_rename, ← hυ.expose hc.regular ht]
  refine Ty.subst_congr fun v hv => ?_
  by_cases hid : v.id ∈ c.environment.pinnedIds c.store.arena
  · rw [hρ.kept v hid, hold v (hexposed.vars hv), hc.eq_of_pinned hσ hυ hpins (hexposed.vars hv) hid]
  · exact hnew v ⟨hv, hid⟩

end Lookup

/-- **Looking a local name up** gives a type that becomes whatever the type of the name can become. -/
theorem lookup (hc : Standing L c) (hx : L.visible? x = some l) :
    ∃ t d, c.typeOf (.variable x) = (.ok t, d) ∧ Typed L c d t ∧
      (∀ τ, d.store.arena.Solution τ → Attains L c.store.arena τ l.type (t.subst τ)) ∧
      ∀ σ r, c.store.arena.Solution σ → Attains L c.store.arena σ l.type r →
        ∃ τ, c.store.arena.Continues d.store.arena σ τ ∧ t.subst τ = r := by
  have hl := hc.types l (Locals.mem_of_visible hx)
  obtain ⟨ρ, b, htype, hρ⟩ := typeOf_single c.store.arena.firstOrder_firstOrder hc.regular hl (hc.locals.candidates hx)
  have hregular : b.Regular := hc.regular.of_same hρ.grows hρ.same
  have hrefines : c.store.arena.Refines b := .of_same hρ.grows hρ.same
  refine ⟨(c.store.arena.expose l.type).rename ρ, { c with store := { c.store with arena := b } },
    ?_, ⟨hc.later rfl hregular hrefines, hrefines, hc.copy_in hl hρ⟩,
    fun τ hτ => hc.attains_of_copy hl hρ hτ, fun σ r hσ h => hc.copy_of_attains hl hρ hσ h⟩
  unfold Context.typeOf
  rw [htype]
  rfl

/-! ### Polymorphic names -/

/-- **A type is generalized** over the variables that no pinned type has: under a solution that keeps the pinned
    types and makes those variables new ones, it is the body of a scheme that has all it can become as
    instances. -/
theorem generalize (hc : Standing L c) (ht : t.In c.store.arena.firstOrder)
    (hσ : c.store.arena.Solution σ) (avoid : List TyVar) :
    ∃ (s : Scheme) (τ : TyVar → Ty), c.store.arena.Solution τ ∧ (∀ p ∈ L.pins, p.subst τ = p.subst σ) ∧
      s.body = t.subst τ ∧ (∀ w ∈ s.generic, w ∉ avoid) ∧
      ∀ r, Attains L c.store.arena σ t r → s.Instance r := by
  have hF := c.store.arena.firstOrder_firstOrder
  have hexposed := hc.regular.closed.expose ht
  obtain ⟨n, hn⟩ := exists_id_bound (avoid ++ L.pins.flatMap fun p => (p.subst σ).vars)
  obtain ⟨havoid, hpinned⟩ := forall_mem_append.mp hn
  let free := (c.store.arena.expose t).vars.filter fun v => v.id ∉ c.environment.pinnedIds c.store.arena
  let base : TyVar → Ty := fun v => if v ∈ free then .var (v.shift n) else σ v
  have hbase : Plain base := by
    intro v
    by_cases hv : v ∈ free
    · simp [base, hv]
    · simpa [base, hv] using hσ.plain v
  have hsolution := hc.regular.solution_extend hbase
  refine ⟨⟨free.map (shift n), t.subst (c.store.arena.extend base), ?_⟩, c.store.arena.extend base,
    hsolution, fun p hp => ?_, rfl, ?_, ?_⟩
  · exact (firstOrder_of_in ht).subst fun v _ => hsolution.plain v
  · have hpin := hc.pin_in hp
    rw [subst_extend hF hc.regular _ hpin, ← hσ.expose hc.regular hpin]
    refine Ty.subst_congr fun v hv => if_neg fun hfree => ?_
    have hid := (mem_filter.mp hfree).2
    exact of_decide_eq_true hid (hc.locals.mem_pinnedIds.mpr ⟨p, hp, v, hv, rfl⟩)
  · rintro _ hw hmem
    obtain ⟨v, -, rfl⟩ := mem_map.mp hw
    exact shift_notMem havoid v hmem
  · rintro r ⟨τ, hτ, hpins, rfl⟩
    refine ⟨fill n free τ, plain_fill hτ.plain, fun w hw => if_neg hw, ?_⟩
    change (t.subst (c.store.arena.extend base)).subst (fill n free τ) = _
    rw [subst_extend hF hc.regular _ ht, (firstOrder_of_in hexposed).subst_subst, ← hτ.expose hc.regular ht]
    refine Ty.subst_congr fun v hv => ?_
    by_cases hfree : v ∈ free
    · simp only [base, if_pos hfree, Ty.subst]
      exact fill_shift hfree
    · have hid : v.id ∈ c.environment.pinnedIds c.store.arena := by
        by_contra hid
        exact hfree (mem_filter.mpr ⟨hv, decide_eq_true hid⟩)
      -- both solutions give the variable the same, and that has no new variables
      simp only [base, if_neg hfree]
      rw [hc.eq_of_pinned hσ hτ hpins (hexposed.vars hv) hid]
      refine (hσ.plain v).subst_eq_self fun w hw => fill_of_lt (hpinned w ?_)
      exact hc.mem_vars_pinned hσ (hexposed.vars hv) hid hw

/-- **A type is specialized**: if a solution makes it the body of a scheme whose generic variables are renamed
    apart from the pinned types, then it can become every instance of the scheme. -/
theorem specialize (hc : Standing L c) (ht : t.In c.store.arena.firstOrder)
    (hσ : c.store.arena.Solution σ) {s : Scheme} {n : Nat} (hgeneric : ∀ v ∈ s.generic, v.id < n)
    (hbody : ∀ v ∈ s.body.vars, v.id < n)
    (hpins : ∀ v ∈ L.pins.flatMap fun p => (p.subst σ).vars, v.id < n)
    (hsubst : t.subst σ = s.body.rename (apart hgeneric)) (hr : s.Instance r) :
    Attains L c.store.arena σ t r := by
  obtain ⟨θ, hθ, hfixed, rfl⟩ := hr
  refine ⟨fun v => (σ v).subst (fill n s.generic θ), hσ.comp hc.regular (plain_fill hθ), fun p hp => ?_, ?_⟩
  · have hpin := firstOrder_of_in (hc.pin_in hp)
    rw [← hpin.subst_subst]
    refine (hpin.subst fun v _ => hσ.plain v).subst_eq_self fun v hv => fill_of_lt ?_
    exact hpins v (mem_flatMap.mpr ⟨p, hp, hv⟩)
  · rw [← (firstOrder_of_in ht).subst_subst, hsubst, s.monotype.subst_rename]
    refine Ty.subst_congr fun v hv => ?_
    by_cases hmem : v ∈ s.generic
    · have hshift : apart hgeneric v = v.shift n := exchange_of_mem hmem
      rw [hshift, fill_shift hmem]
    · have hsame : apart hgeneric v = v := exchange_of_notMem hmem (hbody v hv)
      rw [hsame, fill_of_lt (hbody v hv), hfixed v hmem]

/-! ### Steps of the solver -/

/-- **Applying a function** gives a type under the solutions that make it the result. -/
theorem apply (hc : Standing L c) {f x : Ty} (hf : f.In c.store.arena.firstOrder) (hx : x.In c.store.arena.firstOrder) :
    (∃ t d, c.apply f x = (.ok t, d) ∧ Typed L c d t ∧
      (∀ σ, d.store.arena.Solution σ → f.subst σ = .func (x.subst σ) (t.subst σ)) ∧
      ∀ σ r, c.store.arena.Solution σ → f.subst σ = .func (x.subst σ) r →
        ∃ τ, c.store.arena.Continues d.store.arena σ τ ∧ t.subst τ = r) ∨
    (∀ t d, c.apply f x ≠ (.ok t, d)) ∧ ∀ σ r, c.store.arena.Solution σ → f.subst σ ≠ .func (x.subst σ) r := by
  have hrun : c.apply f x = ((c.store.apply c.definitions f x).1,
    { c with store := (c.store.apply c.definitions f x).2 }) := rfl
  rcases apply_solutions c.definitions hc.regular hf hx with
    ⟨t, hok, hregular, hrefines, ht, hsound, hcomplete⟩ | ⟨⟨e, herror⟩, hnone⟩
  · rw [hok] at hrun
    exact Or.inl ⟨t, _, hrun, ⟨hc.later rfl hregular hrefines, hrefines, ht⟩, hsound, hcomplete⟩
  · rw [herror] at hrun
    refine Or.inr ⟨fun t d h => ?_, hnone⟩
    rw [hrun] at h
    cases h

/-- **Expecting a type** leaves the solutions under which it is the type found. -/
theorem expect (hc : Standing L c) {l : Ty} (hl : l.In c.store.arena.firstOrder)
    (hr : r.In c.store.arena.firstOrder) :
    (∃ d, c.expect l r = (.ok (), d) ∧ Standing L d ∧ c.store.arena.Refines d.store.arena ∧
      ∀ σ, d.store.arena.Solution σ ↔ c.store.arena.Solution σ ∧ l.subst σ = r.subst σ) ∨
    (∀ d, c.expect l r ≠ (.ok (), d)) ∧ ∀ σ, c.store.arena.Solution σ → l.subst σ ≠ r.subst σ := by
  have hrun : c.unify l r = ((c.store.unify c.definitions l r).1,
    { c with store := (c.store.unify c.definitions l r).2 }) := rfl
  obtain ⟨hregular, hrefines, ⟨hverdict, hsolutions⟩ | ⟨hverdict, hnone⟩⟩ :=
    unify_solutions c.definitions hc.regular hl hr
  · rw [hverdict] at hrun
    refine Or.inl ⟨{ c with store := (c.store.unify c.definitions l r).2 }, ?_,
      hc.later rfl hregular hrefines, hrefines, hsolutions⟩
    rw [Context.expect, hrun]
  · rw [hverdict] at hrun
    refine Or.inr ⟨fun d h => ?_, hnone⟩
    rw [Context.expect, hrun] at h
    cases h

/-! ### Scopes inside -/

/-- **The scope of a parameter.** -/
theorem parameter (hc : Standing L c) (x : Ident) : Standing (.parameter x c :: L) (openParameter x c).2 :=
  hc.inner rfl hc.regular.fresh c.store.arena.refines_fresh c.store.arena.fresh_in

/-- The scope of a local binding around its own value. -/
theorem value (hc : Standing L c) (x : Ident) : Standing (.parameter x c :: L) (openValue x c) :=
  (hc.parameter x).later rfl hc.regular.fresh (.refl _)

theorem parameter_in {x : Ident} (hd : Standing (.parameter x c :: L) d) :
    (openParameter x c).1.In d.store.arena.firstOrder :=
  hd.types _ mem_cons_self

/-- A parameter can have any monotype. -/
theorem assign (hc : Standing L c) (x : Ident) (hσ : c.store.arena.Solution σ) (ht : t.FirstOrder) :
    ∃ τ, c.store.arena.Continues (openParameter x c).2.store.arena σ τ ∧ (openParameter x c).1.subst τ = t := by
  refine ⟨_, hσ.fresh hc.regular ht, ?_⟩
  change (Ty.var c.store.arena.fresh.1).subst _ = t
  rw [Ty.subst, Function.update_self]

/-- **The scope of a local binding behind its value**: the name is of the type of the value under the solutions
    that are left. -/
theorem bound (hc : Standing L c) {x : Ident} {inner bound : Context}
    (hvalue : Typed (.parameter x c :: L) (openValue x c) inner t)
    (hexpect : inner.expect (openParameter x c).1 t = (.ok (), d)) (hbound : BindsName x c d bound) :
    Standing (.bound x c :: L) bound ∧ c.store.arena.Refines bound.store.arena ∧
      ∀ σ, bound.store.arena.Solution σ ↔ inner.store.arena.Solution σ ∧ (openParameter x c).1.subst σ = t.subst σ := by
  rcases hvalue.standing.expect hvalue.standing.parameter_in hvalue.type with
    ⟨d', hrun, hd, hrefines, hsolution⟩ | ⟨hnone, -⟩
  · rw [hrun] at hexpect
    cases hexpect
    rw [hbound.arena]
    have hgrows := (c.store.arena.refines_fresh.trans hvalue.refines).trans hrefines
    refine ⟨hc.inner ?_ ?_ ?_ ?_, hgrows, hsolution⟩
    · rw [hbound.environment]
      rfl
    · rw [hbound.arena]
      exact hd.regular
    · rw [hbound.arena]
      exact hgrows
    · rw [hbound.arena]
      exact hd.parameter_in
  · exact absurd hexpect (hnone d)

end Standing

theorem Typed.trans {c d e : Context} {t u : Ty} (h : Typed L c d t) (h' : Typed L d e u) : Typed L c e u :=
  ⟨h'.standing, h.refines.trans h'.refines, h'.type⟩

/-- Leaving a scope leaves the type that was found in it. -/
theorem Typed.outer {c inner inner' d : Context} {t : Ty} (hc : Standing L c) (h : Typed (l :: L) inner inner' t)
    (hrefines : c.store.arena.Refines inner.store.arena) (henv : d.environment = c.environment)
    (harena : d.store.arena = inner'.store.arena) : Typed L c d t := by
  have hrefines : c.store.arena.Refines d.store.arena := harena ▸ hrefines.trans h.refines
  refine ⟨hc.later henv ?_ hrefines, hrefines, ?_⟩
  · rw [harena]
    exact h.standing.regular
  · rw [harena]
    exact h.type

end UnionTyping
