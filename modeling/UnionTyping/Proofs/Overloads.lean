import UnionTyping.Proofs.Alike
import UnionTyping.Proofs.Overlap

/-!
# `Proofs.Overloads` — which overloads an argument takes

An overloaded function is a union of functions. Applied to a ground argument, each alternative of the argument takes
those overloads that no earlier one has taken and that accept it, and the result is the union of their results
(`overload_resolution`).

To find out whether an overload accepts an argument, the application unifies the overload with a function from the
argument to a new variable. Both happens in one go, the comparison of the arguments and the binding of the new variable
to the result; the first decides whether there is a match, and the second cannot fail (`unify_overload`).
Nothing else is bound, so the next overload is met by the same argument.
-/

namespace UnionTyping

open List Arena Store Ty

open Ty (Overlaps)

/-! ## Arenas that keep some variables -/

variable {v : TyVar} {t : Ty}

/-- The arena grows, and certain variables are bound as they were, or unbound as they were. -/
structure Arena.Spares (kept : Nat → Prop) (a b : Arena) : Prop where
  grows : a.Extends b
  same : ∀ id, kept id → b.binding? id = a.binding? id

namespace Arena

variable {kept : Nat → Prop} {a b : Arena}

theorem Spares.refl (a : Arena) : a.Spares kept a :=
  ⟨.refl a, fun _ _ => rfl⟩

theorem Spares.trans {c : Arena} (hab : a.Spares kept b) (hbc : b.Spares kept c) : a.Spares kept c :=
  ⟨hab.grows.trans hbc.grows, fun id hid => (hbc.same id hid).trans (hab.same id hid)⟩

theorem Spares.of_fresh (a : Arena) : a.Spares kept a.fresh.2 :=
  ⟨.of_fresh a, fun id _ => a.binding?_fresh id⟩

theorem Spares.of_bind {id : Nat} (h : a.bind? id t = .ok b) (hid : ¬kept id) : a.Spares kept b := by
  refine ⟨.of_bind h, fun other hother => ?_⟩
  rw [binding?_bind h, if_neg]
  rintro rfl
  exact hid hother

/-! ### Looking through kept bindings, among cycles or not -/

variable {u : Ty}

theorem followWithin_extends (h : a.Extends b) {n m : Nat} (hnm : n ≤ m) (ht : a.followWithin n t = u)
    (hu : ∀ v, u ≠ .var v) : b.followWithin m t = u := by
  induction n generalizing m t with
  | zero =>
    rw [← ht] at hu ⊢
    exact followWithin_of_ne_var hu
  | succ n ih =>
    obtain ⟨m, rfl⟩ : ∃ k, m = k + 1 := ⟨m - 1, by omega⟩
    cases t with
    | var v =>
      cases hb : a.binding? v.id with
      | none =>
        rw [followWithin_unbound hb] at ht
        exact absurd ht.symm (hu v)
      | some w =>
        simp only [followWithin, hb, h.binding? hb] at ht ⊢
        exact ih (by omega) ht
    | _ => exact ht

/-- **What is no variable at the top stays there**, even among cycles. -/
theorem follow_extends_of_ne_var (h : a.Extends b) (ht : a.follow t = u) (hu : ∀ v, u ≠ .var v) : b.follow t = u :=
  followWithin_extends h h.size_le ht hu

/-- Where no variable is left after some hops, more of them make no difference. -/
theorem exposeWithin_of_closed {n m : Nat} (h : (a.exposeWithin n t).vars = []) (hnm : n ≤ m) :
    a.exposeWithin m t = a.exposeWithin n t := by
  induction n generalizing m t with
  | zero =>
    have hnone : ∀ v, v ∉ t.vars := by
      intro v hv
      have hmem : v ∈ (a.exposeWithin 0 t).vars := mem_vars_subst.mpr ⟨v, hv, by simp⟩
      rw [h] at hmem
      cases hmem
    exact exposeWithin_of_within (fun v hv => absurd hv (hnone v)) hnm
  | succ n ih =>
    obtain ⟨m, rfl⟩ : ∃ k, m = k + 1 := ⟨m - 1, by omega⟩
    refine subst_congr fun v hv => ?_
    cases hb : a.binding? v.id with
    | none => rfl
    | some u =>
      refine ih (eq_nil_iff_forall_not_mem.mpr fun w hw => ?_) (by omega)
      have hmem : w ∈ (a.exposeWithin (n + 1) t).vars := by
        refine mem_vars_subst.mpr ⟨v, hv, ?_⟩
        rw [hb]
        exact hw
      rw [h] at hmem
      cases hmem

/-- A type in which no variable is left is no variable at the top, and looks the same from there. -/
theorem follow_of_closed (h : (a.expose t).vars = []) :
    (∀ v, a.follow t ≠ .var v) ∧ a.expose (a.follow t) = a.expose t := by
  have hwithin : ∀ n m (t : Ty), n ≤ m → (a.exposeWithin n t).vars = [] →
      (∀ v, a.followWithin n t ≠ .var v) ∧ a.exposeWithin m (a.followWithin n t) = a.exposeWithin n t := by
    intro n
    induction n with
    | zero =>
      intro m t hm h
      refine ⟨fun v hv => ?_, exposeWithin_of_closed h hm⟩
      change t = .var v at hv
      rw [hv] at h
      cases h
    | succ n ih =>
      intro m t hm h
      cases t with
      | var v =>
        cases hb : a.binding? v.id with
        | none =>
          simp only [exposeWithin, subst, hb] at h
          cases h
        | some u =>
          simp only [exposeWithin, subst, followWithin, hb] at h ⊢
          exact ih m u (by omega) h
      | _ => exact ⟨by simp [followWithin], exposeWithin_of_closed h hm⟩
  exact hwithin a.size a.size t (Nat.le_refl _) h

/-- A variable that is bound to a ground type is seen as that type. -/
theorem expose_var_of_ground (h : a.binding? v.id = some t) (ht : t.Ground) : a.expose (.var v) = t.subst .var := by
  have hlt := lt_size_of_binding? h
  unfold expose
  obtain ⟨n, hn⟩ : ∃ n, a.size = n + 1 := ⟨a.size - 1, by omega⟩
  rw [hn]
  simp only [exposeWithin, subst, h]
  exact exposeWithin_of_within (n := 0) (fun w hw => absurd hw (ht.not_mem_vars w)) (Nat.zero_le _)

theorem follow_var_of_ground (h : a.binding? v.id = some t) (ht : t.Ground) : a.follow (.var v) = t := by
  have hlt := lt_size_of_binding? h
  unfold follow
  obtain ⟨n, hn⟩ : ∃ n, a.size = n + 1 := ⟨a.size - 1, by omega⟩
  rw [hn]
  simp only [followWithin, h]
  exact followWithin_of_ne_var ht.ne_var

end Arena

/-! ## Meeting one overload -/

variable {s : Store} {R : Ty}

/-- **A comparison binds the variable** and succeeds. -/
def Assigns (s : Store) (v : TyVar) (t : Ty) (out : Option (Bool × Store)) : Prop :=
  ∃ s' : Store, out = some (true, s') ∧ s.arena.bind? v.id t = .ok s'.arena

theorem Ty.Ground.not_equiv_var (ht : t.Ground) (v : TyVar) : (var v).equiv t = false := by
  cases t with
  | var w => exact absurd rfl (ht.ne_var w)
  | _ => rfl

/-- An unbound variable is bound to a ground type in one step. -/
theorem compareStep_assigns {defs : Definitions} {next : Comparison} {level : Nat} (hlt : v.id < s.arena.size)
    (hfree : s.arena.binding? v.id = none) (ht : t.Ground) :
    Assigns s v t (compareStep defs next (.var v) t level s) := by
  have hfollow : s.arena.follow (.var v) = .var v := follow_unbound hfree
  have hdiffer : s.arena.equivalent (s.arena.follow (.var v)) (s.arena.follow t) = false := by
    rw [hfollow, ht.follow, equivalent, expose_unbound hfree, ht.expose]
    exact (ht.subst .var).not_equiv_var v
  have hplan : plan defs s.arena (.var v) t = .bind v t := by
    cases t with
    | var w => exact absurd rfl (ht.ne_var w)
    | _ => rfl
  have habsent : s.arena.occursWithin v t = false := by
    rw [occursWithin, ht.expose, any_eq_false]
    intro c hc
    have hchild := (ht.subst .var).child hc
    simpa [Ty.occursIn, var_mem_subterms] using hchild.not_mem_vars v
  obtain ⟨b, hb⟩ := bind_of_unbound t hlt hfree
  obtain ⟨before, hbefore, hrun⟩ := compareStep_run hdiffer
  have hbind : bindTo v t before = (true, { before with arena := b }) := by
    rw [bindTo, hbefore, habsent, if_neg Bool.false_ne_true, Store.bind, hbefore, hb]
  rw [hfollow, ht.follow, hplan] at hrun
  obtain ⟨s', hstep, hs'⟩ := hrun true { before with arena := b } (congrArg some hbind)
  exact ⟨s', hstep, by rw [hs', hb]⟩

/-- **What a comparison has to be able to do**: it decides about ground types that are not too heavy, and it binds
    unbound variables to ground types. -/
structure Comparison.Handles (limit : Nat) (next : Comparison) : Prop where
  judges : ∀ {l r l' r' : Ty} {level : Nat} {s : Store}, s.arena.follow l = l' → s.arena.follow r = r' →
    l'.Ground → r'.Ground → s.arena.weight l' + s.arena.weight r' < limit →
    Judges s (Overlaps l' r') (next l r level s)
  assigns : ∀ {v : TyVar} {t : Ty} {level : Nat} {s : Store}, v.id < s.arena.size →
    s.arena.binding? v.id = none → t.Ground → Assigns s v t (next (.var v) t level s)

theorem Arena.depthFor_eq (a : Arena) (l r : Ty) :
    ∃ depth, a.depthFor l r = depth + 2 ∧ a.weight l + a.weight r ≤ depth := by
  refine ⟨a.weight l + a.weight r + 65534, ?_, Nat.le_add_right _ _⟩
  unfold depthFor unfoldingAllowance
  omega

/-- The outermost step of a comparison takes one from the depth that is granted. -/
theorem compareWithin_eq (defs : Definitions) (unbound : Nat) : ∃ lower : Comparison,
    (∀ m, unbound = m + 1 → lower = compareWithin defs m) ∧ ∀ l r level (s : Store),
      compareWithin defs unbound l r level s = compareAt defs lower unbound (s.arena.depthFor l r) l r level s := by
  cases unbound with
  | zero => exact ⟨fun _ _ _ _ => none, (fun m hm => by cases hm), fun _ _ _ _ => rfl⟩
  | succ m => exact ⟨compareWithin defs m, (fun _ hm => by cases hm; rfl), fun _ _ _ _ => rfl⟩

theorem compareWithin_assigns {defs : Definitions} {unbound level : Nat} (hlt : v.id < s.arena.size)
    (hfree : s.arena.binding? v.id = none) (ht : t.Ground) :
    Assigns s v t (compareWithin defs unbound (.var v) t level s) := by
  obtain ⟨lower, -, hrun⟩ := compareWithin_eq defs unbound
  obtain ⟨depth, hdepth, -⟩ := s.arena.depthFor_eq (.var v) t
  rw [hrun, hdepth]
  exact compareStep_assigns hlt hfree ht

/-- **A unification begins with one step**, and what comes after it can handle ground types. -/
theorem compareWithin_step (defs : Definitions) (l r : Ty) (level : Nat) (s : Store) :
    ∃ next : Comparison, next.Handles (s.arena.weight l + s.arena.weight r) ∧
      compareWithin defs s.arena.unboundCount l r level s = compareStep defs next l r level s := by
  obtain ⟨depth, hdepth, hmore⟩ := s.arena.depthFor_eq l r
  generalize s.arena.unboundCount = n
  obtain ⟨lower, hlower, hrun⟩ := compareWithin_eq defs n
  refine ⟨fun l r level s => if s.arena.unboundCount < n then lower l r level s
    else compareAt defs lower n (depth + 1) l r level s, ⟨?_, ?_⟩, by rw [hrun, hdepth]; rfl⟩
  -- once a variable is bound, the rest is a whole comparison under a smaller count
  · intro l r l' r' level s' hfl hfr hl hr hlimit
    split
    · obtain ⟨m, hm⟩ : ∃ m, n = m + 1 := ⟨n - 1, by omega⟩
      rw [hlower m hm]
      exact compareWithin_judges hfl hfr hl hr
    · exact compareAt_judges (fun hfewer => absurd hfewer ‹_›) hfl hfr hl hr (by omega)
  · intro v t level s' hlt hfree ht
    split
    · obtain ⟨m, hm⟩ : ∃ m, n = m + 1 := ⟨n - 1, by omega⟩
      rw [hlower m hm]
      exact compareWithin_assigns hlt hfree ht
    · exact compareStep_assigns hlt hfree ht

/-- **A function from an argument to a new variable meets an overload**: first the arguments are compared, in one order
    or the other, and then the variable meets the result. -/
theorem compareWithin_overload (defs : Definitions) (x A : Ty) (hfree : s.arena.binding? v.id = none) (hR : R.Ground) :
    ∃ (next : Comparison) (limit : Nat) (noted : Store), next.Handles limit ∧
      s.arena.weight x + s.arena.weight A < limit ∧ noted.arena = s.arena ∧ ∀ ok (after : Store),
        compareAll next 1 true [if (s.arena.follow x).isFunc then (A, x) else (x, A), (.var v, R)] noted =
          some (ok, after) → ∃ s' : Store, s'.arena = after.arena ∧
            compareWithin defs s.arena.unboundCount (.func x (.var v)) (.func A R) 0 s = some (ok, s') := by
  obtain ⟨next, hnext, hstep⟩ := compareWithin_step defs (.func x (.var v)) (.func A R) 0 s
  have hlimit : s.arena.weight x + s.arena.weight A <
      s.arena.weight (.func x (.var v)) + s.arena.weight (.func A R) := by
    have hx : s.arena.weight x < s.arena.weight (.func x (.var v)) :=
      weight_child_lt (by simp [children])
    have hA : s.arena.weight A < s.arena.weight (.func A R) := weight_child_lt (by simp [children])
    omega
  have hfollow : ∀ t u : Ty, s.arena.follow (.func t u) = .func t u :=
    fun t u => follow_of_ne_var fun w h => by cases h
  have hexpose : ∀ t u : Ty, s.arena.expose (.func t u) = .func (s.arena.expose t) (s.arena.expose u) := by
    intro t u
    unfold expose
    cases s.arena.size <;> rfl
  have hdiffer : s.arena.equivalent (s.arena.follow (.func x (.var v))) (s.arena.follow (.func A R)) = false := by
    rw [hfollow, hfollow, equivalent, hexpose, hexpose, expose_unbound hfree, hR.expose, equiv,
      (hR.subst .var).not_equiv_var, Bool.and_false]
  obtain ⟨before, hbefore, hrun⟩ := compareStep_run hdiffer
  rw [hfollow, hfollow] at hrun
  refine ⟨next, _, before, hnext, hlimit, hbefore, fun ok after hall => ?_⟩
  obtain ⟨s', hout, hs'⟩ := hrun ok after hall
  exact ⟨s', hs', hstep.trans hout⟩

/-- Once the arguments are found to go together, the new variable is bound to the result. -/
theorem compareAll_overload {next : Comparison} {limit : Nat} {s₁ : Store} {p : Ty × Ty} (hnext : next.Handles limit)
    (hfirst : next p.1 p.2 1 s = some (true, s₁)) (hlt : v.id < s₁.arena.size) (hfree : s₁.arena.binding? v.id = none)
    (hR : R.Ground) : Assigns s₁ v R (compareAll next 1 true [p, (.var v, R)] s) := by
  have hassigns : Assigns s₁ v R (next (.var v) R 1 s₁) := hnext.assigns hlt hfree hR
  obtain ⟨s₂, hsecond, hbind⟩ := hassigns
  refine ⟨s₂, ?_, hbind⟩
  unfold compareAll
  rw [hfirst]
  exact (compareAll_single _ _ s₁).trans hsecond

/-- **An argument that is ground meets an overload.** There is a match iff the argument overlaps with what the overload
    accepts; then the new variable is bound to the result, and otherwise nothing is bound. -/
theorem unify_overload (defs : Definitions) {x B A : Ty} (hlt : v.id < s.arena.size)
    (hfree : s.arena.binding? v.id = none) (hx : s.arena.follow x = B) (hB : B.Ground) (hA : A.Ground) (hR : R.Ground) :
    (Overlaps B A ∧ ∃ s', s.unify defs (.func x (.var v)) (.func A R) = (.unified, s') ∧
      s.arena.bind? v.id R = .ok s'.arena) ∨
    (¬Overlaps B A ∧ ∃ s', s.unify defs (.func x (.var v)) (.func A R) = (.mismatch, s') ∧ s'.arena = s.arena) := by
  obtain ⟨next, limit, noted, hnext, hlimit, harena, hrun⟩ := compareWithin_overload defs x A hfree hR
  have hlight : s.arena.weight B + s.arena.weight A < limit := by
    subst hx
    have := hB.weight_follow_le
    omega
  -- which of the two comes first makes no difference
  have hjudges : ∀ p, p = (if (s.arena.follow x).isFunc then (A, x) else (x, A)) →
      Judges noted (Overlaps B A) (next p.1 p.2 1 noted) := by
    rintro p rfl
    split
    · refine (hnext.judges (hA.follow _) (harena ▸ hx) hA hB ?_).congr rfl overlaps_comm
      rw [harena]
      omega
    · refine hnext.judges (harena ▸ hx) (hA.follow _) hB hA ?_
      rw [harena]
      omega
  obtain ⟨ok, s₁, hfirst, hsame, hok⟩ := hjudges _ rfl
  cases ok with
  | false =>
    obtain ⟨s', hs', hout⟩ := hrun false s₁ (by
      unfold compareAll
      rw [hfirst]
      rfl)
    refine Or.inr ⟨fun h => Bool.false_ne_true (hok.mpr h), s'.rollback s.arena.snapshot, ?_, ?_⟩
    · rw [unify, hout]
    · change s'.arena.rollback s.arena.snapshot = s.arena
      rw [hs', hsame, harena, rollback_snapshot]
  | true =>
    have hbefore : s₁.arena = s.arena := hsame.trans harena
    obtain ⟨s₂, hall, hbind⟩ := compareAll_overload hnext hfirst (hbefore ▸ hlt) (hbefore ▸ hfree) hR
    obtain ⟨s', hs', hout⟩ := hrun true s₂ hall
    refine Or.inl ⟨hok.mp rfl, s', ?_, ?_⟩
    · rw [unify, hout]
    · rw [hs', ← hbefore]
      exact hbind

/-! ## Matching -/

variable {o : Overload}

/-- One of the functions that an overloaded function consists of. -/
structure Overload where
  argument : Ty
  result : Ty
deriving DecidableEq

namespace Overload

/-- The overload as a type. -/
def type (o : Overload) : Ty :=
  .func o.argument o.result

/-- Both types are ground. -/
structure Ground (o : Overload) : Prop where
  argument : o.argument.Ground
  result : o.result.Ground

/-- **The overloads that the alternatives of an argument take**, where `accepts x A` says whether the alternative `x`
    is accepted where `A` is: each overload once, ordered by the first alternative that it accepts, and then as they
    are given. -/
def taken (accepts : Ty → Ty → Bool) (xs : List Ty) (overloads : List Overload) : List Overload :=
  (List.range xs.length).flatMap fun j =>
    overloads.filter fun o => xs.findIdx? (fun x => accepts x o.argument) == some j

variable {accepts : Ty → Ty → Bool} {xs : List Ty} {overloads : List Overload}

@[simp] theorem taken_nil : taken accepts [] overloads = [] := rfl

/-- The first alternative takes what it can, and the others share the rest. -/
theorem taken_cons {x : Ty} : taken accepts (x :: xs) overloads =
    (overloads.filter fun o => accepts x o.argument) ++
      taken accepts xs (overloads.filter fun o => !accepts x o.argument) := by
  unfold taken
  rw [length_cons, range_succ_eq_map, flatMap_cons, flatMap_map]
  congr 1
  · refine filter_congr fun o _ => ?_
    rw [findIdx?_cons]
    cases accepts x o.argument with
    | true => rfl
    | false => cases xs.findIdx? fun x => accepts x o.argument <;> rfl
  · refine congrArg (fun f => (List.range xs.length).flatMap f) (funext fun j => ?_)
    rw [filter_filter]
    refine filter_congr fun o _ => ?_
    rw [findIdx?_cons]
    cases accepts x o.argument with
    | true => simp
    | false => cases xs.findIdx? fun x => accepts x o.argument <;> simp

/-- Only overloads that accept an alternative are taken, and all of them. -/
theorem mem_taken : o ∈ taken accepts xs overloads ↔ o ∈ overloads ∧ ∃ x ∈ xs, accepts x o.argument = true := by
  induction xs generalizing overloads with
  | nil => simp
  | cons x xs ih =>
    rw [taken_cons, mem_append, ih, mem_filter, mem_filter]
    cases hx : accepts x o.argument with
    | true => simp [hx]
    | false => simp [hx]

theorem taken_eq_nil_iff : taken accepts xs overloads = [] ↔
    ∀ x ∈ xs, ∀ o ∈ overloads, accepts x o.argument = false := by
  rw [eq_nil_iff_forall_not_mem]
  simp only [mem_taken, not_and, not_exists, Bool.not_eq_true]
  exact ⟨fun h x hx o ho => h o ho x hx, fun h o ho x hx => h x hx o ho⟩

/-- What is accepted decides, not how an overload is written. -/
theorem taken_map {f : Overload → Overload}
    (hf : ∀ x ∈ xs, ∀ o ∈ overloads, accepts x (f o).argument = accepts x o.argument) :
    taken accepts xs (overloads.map f) = (taken accepts xs overloads).map f := by
  induction xs generalizing overloads with
  | nil => rfl
  | cons x xs ih =>
    obtain ⟨hx, hxs⟩ := forall_mem_cons.mp hf
    have htakes : ((overloads.map f).filter fun o => accepts x o.argument) =
        (overloads.filter fun o => accepts x o.argument).map f := by
      rw [filter_map]
      exact congrArg _ (filter_congr hx)
    have hleaves : ((overloads.map f).filter fun o => !accepts x o.argument) =
        (overloads.filter fun o => !accepts x o.argument).map f := by
      rw [filter_map]
      exact congrArg _ (filter_congr fun o ho => congrArg _ (hx o ho))
    rw [taken_cons, taken_cons, map_append, htakes, hleaves, ih fun y hy o ho => hxs y hy o (mem_filter.mp ho).1]

/-- Repeated overloads add nothing to what the overloads that are taken give. -/
theorem eraseDups_taken_flatMap {α : Type} [BEq α] [LawfulBEq α] (f : Overload → List α) :
    ((taken accepts xs overloads.eraseDups).flatMap f).eraseDups =
      ((taken accepts xs overloads).flatMap f).eraseDups := by
  induction xs generalizing overloads with
  | nil => rfl
  | cons x xs ih =>
    rw [taken_cons, taken_cons, flatMap_append, flatMap_append, ← eraseDups_filter, ← eraseDups_filter]
    exact eraseDups_append_congr (eraseDups_flatMap_eraseDups f _) ih

end Overload

/-- **What handing out a variable does.** -/
theorem Store.fresh_spec (s : Store) : ∃ (v : TyVar) (next : Store), s.fresh = (.var v, next) ∧
    v.id = s.arena.size ∧ next.arena.size = s.arena.size + 1 ∧ next.arena.binding? v.id = none ∧
    ∀ kept, s.arena.Spares kept next.arena := by
  refine ⟨s.arena.fresh.1, { s with arena := s.arena.fresh.2 }, rfl, rfl, s.arena.size_fresh, ?_, fun kept => ?_⟩
  · exact (s.arena.binding?_fresh _).trans (binding?_eq_none (Nat.le_refl _))
  · exact .of_fresh s.arena

section Matching

variable (defs : Definitions) {kept : Nat → Prop} {overloads : List Overload}

/-- **An argument that is ground is matched** against overloads: those that accept it give their results, in order,
    and the others remain. No variable that there was is bound. -/
theorem matchArgument_ground {x B : Ty} (accepts : Ty → Bool) (hB : B.Ground)
    (haccepts : ∀ o ∈ overloads, (accepts o.argument = true ↔ Overlaps B o.argument))
    (hover : ∀ o ∈ overloads, o.Ground) (hx : s.arena.follow x = B) (hkept : ∀ id, kept id → id < s.arena.size) :
    ∃ s', matchArgument defs x (overloads.map Overload.type) s =
        some (⟨(overloads.filter fun o => !accepts o.argument).map Overload.type,
          (overloads.filter fun o => accepts o.argument).map fun o => o.result.subst .var⟩, s') ∧
      s.arena.Spares kept s'.arena := by
  induction overloads generalizing s with
  | nil => exact ⟨s, rfl, .refl _⟩
  | cons o rest ih =>
    obtain ⟨ho, hrest⟩ := forall_mem_cons.mp hover
    obtain ⟨haccepted, hothers⟩ := forall_mem_cons.mp haccepts
    obtain ⟨v, s₀, hv, hid, hsize, hfree, hfresh⟩ := s.fresh_spec
    have hx₀ : s₀.arena.follow x = B := follow_extends_of_ne_var (hfresh kept).grows hx hB.ne_var
    have hgoes : ∀ s₁ : Store, s.arena.Spares kept s₁.arena → ∃ s', matchArgument defs x
        (rest.map Overload.type) s₁ = some (⟨(rest.filter fun o => !accepts o.argument).map Overload.type,
          (rest.filter fun o => accepts o.argument).map fun o => o.result.subst .var⟩, s') ∧
        s₁.arena.Spares kept s'.arena :=
      fun s₁ hs₁ => ih hothers hrest (follow_extends_of_ne_var hs₁.grows hx hB.ne_var)
        fun id h => Nat.lt_of_lt_of_le (hkept id h) hs₁.grows.size_le
    unfold matchArgument
    simp only [map_cons, hv, Overload.type]
    rcases unify_overload defs (by rw [hsize]; omega) hfree hx₀ hB ho.argument ho.result with
      ⟨hmeets, s₁, hunify, hbind⟩ | ⟨hmisses, s₁, hunify, hsame⟩
    · -- a match binds the new variable to the result
      have hspares : s.arena.Spares kept s₁.arena :=
        (hfresh kept).trans (.of_bind hbind fun hkv => Nat.lt_irrefl _ (hid ▸ hkept _ hkv))
      obtain ⟨s', hmore, hspares'⟩ := hgoes s₁ hspares
      have hshown : s₁.arena.expose (.var v) = o.result.subst .var :=
        expose_var_of_ground (by rw [binding?_bind hbind, if_pos rfl]) ho.result
      refine ⟨s', ?_, hspares.trans hspares'⟩
      simp [hunify, hmore, hshown, haccepted.mpr hmeets]
    · have hspares : s.arena.Spares kept s₁.arena := hsame ▸ hfresh kept
      obtain ⟨s', hmore, hspares'⟩ := hgoes s₁ hspares
      have hrefused : accepts o.argument = false :=
        Bool.eq_false_iff.mpr fun h => hmisses (haccepted.mp h)
      refine ⟨s', ?_, hspares.trans hspares'⟩
      simp only [hunify, hmore, Option.bind_eq_bind, Option.bind_some, filter_cons, hrefused,
        Bool.not_false, Bool.false_eq_true, if_true, if_false, map_cons]
      rfl

/-- **Ground arguments are matched** one after the other against what the earlier ones have left. -/
theorem matchArguments_ground {accepts : Ty → Ty → Bool} {xs : List Ty}
    (haccepts : ∀ x A : Ty, x.Ground → A.Ground → (accepts x A = true ↔ Overlaps x A)) (hxs : ∀ x ∈ xs, x.Ground)
    (hover : ∀ o ∈ overloads, o.Ground) (hkept : ∀ id, kept id → id < s.arena.size) :
    ∃ matched s', matchArguments defs xs (overloads.map Overload.type) s = some (matched, s') ∧
      matched.results = (Overload.taken accepts xs overloads).map (fun o => o.result.subst .var) ∧
      s.arena.Spares kept s'.arena := by
  induction xs generalizing s overloads with
  | nil => exact ⟨{}, s, rfl, rfl, .refl _⟩
  | cons x xs ih =>
    obtain ⟨hx, hrest⟩ := forall_mem_cons.mp hxs
    obtain ⟨s₁, hmatch, hspares⟩ := matchArgument_ground defs (accepts x) hx
      (fun o ho => haccepts x o.argument hx (hover o ho).argument) hover (hx.follow s.arena) hkept
    have hleft : ∀ o ∈ overloads.filter fun o => !accepts x o.argument, o.Ground :=
      fun o ho => hover o (mem_filter.mp ho).1
    obtain ⟨matched, s₂, hmore, hresults, hspares'⟩ :=
      ih hrest hleft fun id h => Nat.lt_of_lt_of_le (hkept id h) hspares.grows.size_le
    unfold matchArguments
    simp only [hmatch, hmore, Option.bind_eq_bind, Option.bind_some]
    refine ⟨_, s₂, rfl, ?_, hspares.trans hspares'⟩
    rw [Overload.taken_cons, map_append, hresults]

end Matching

/-! ## Overloaded functions -/

/-- The overload as it is seen, with all unions in normal form. -/
def Overload.normal (o : Overload) : Overload :=
  ⟨o.argument.subst .var, o.result.subst .var⟩

/-- The overloads as they are seen, each of them once. -/
def Overload.seen (overloads : List Overload) : List Overload :=
  (overloads.map normal).eraseDups

theorem Overload.mem_seen {overloads : List Overload} : o ∈ seen overloads ↔ ∃ p ∈ overloads, p.normal = o := by
  rw [seen, mem_eraseDups, mem_map]

section Overloaded

variable {a : Arena} {function : Ty} {overloads : List Overload}

theorem Overload.ground_of_alternatives (hfun : function.alternatives = overloads.map type)
    (hground : function.Ground) : ∀ o ∈ overloads, o.Ground := by
  intro o ho
  have htype : o.type.Ground := hground.alternative (hfun ▸ mem_map_of_mem ho)
  exact ⟨htype.child (by simp [Overload.type, children]), htype.child (by simp [Overload.type, children])⟩

/-- **The alternatives of an overloaded function** are its overloads, as they are seen, each of them once. -/
theorem decompose_overloads (hfun : function.alternatives = overloads.map Overload.type) (hground : function.Ground) :
    a.decompose function = (Overload.seen overloads).map Overload.type := by
  have hseen : (a.expose function).alternatives = (Overload.seen overloads).map Overload.type := by
    have hnormal : (function.subst .var).Normal :=
      hground.solid.normal_subst fun v _ => ⟨solid_var v, normal_var v⟩
    have hmembers := hground.solid.alternatives_subst (f := .var) fun v => ⟨solid_var v, normal_var v⟩
    have hinjective : ∀ o ∈ overloads.map Overload.normal, ∀ o' ∈ overloads.map Overload.normal,
        o.type = o'.type → o = o' := by
      intro o _ o' _ h
      injection h with hargument hresult
      cases o
      cases o'
      subst hargument hresult
      rfl
    rw [hground.expose, ← eraseDups_of_nodup hnormal.nodup, hmembers, hfun, Overload.seen, ← eraseDups_map hinjective,
      flatMap_map, map_map, map_eq_flatMap]
    rfl
  unfold decompose
  cases hexposed : a.expose function with
  | union ms =>
    rw [hexposed] at hseen
    exact hseen
  | algebraic n as os =>
    -- a sum is no overload
    rw [hexposed] at hseen
    have hmem : algebraic n as os ∈ (Overload.seen overloads).map Overload.type :=
      hseen ▸ mem_singleton.mpr rfl
    obtain ⟨o, -, ho⟩ := mem_map.mp hmem
    cases ho
  | _ =>
    rw [hexposed] at hseen
    exact hseen

theorem Overload.Ground.normal (h : o.Ground) : o.normal.Ground :=
  ⟨h.argument.subst .var, h.result.subst .var⟩

theorem Overload.ground_seen (hover : ∀ o ∈ overloads, o.Ground) : ∀ o ∈ seen overloads, o.Ground := by
  intro o ho
  obtain ⟨p, hp, rfl⟩ := mem_seen.mp ho
  exact (hover p hp).normal

/-- **The results of the overloads that are taken**: whether they are taken as they are seen or as they are written,
    their union is the same. -/
theorem union?_taken {accepts : Ty → Ty → Bool} {xs : List Ty} (b : Arena) (hover : ∀ o ∈ overloads, o.Ground)
    (haccepts : ∀ x ∈ xs, ∀ o ∈ overloads, accepts x o.normal.argument = accepts x o.argument) :
    union? (((Overload.taken accepts xs (Overload.seen overloads)).map fun o => o.result.subst .var).map b.expose) =
      union? ((Overload.taken accepts xs overloads).map fun o => a.expose o.result) := by
  have hseen : ∀ o ∈ overloads, b.expose (o.normal.result.subst .var) = a.expose o.result := by
    intro o ho
    have hresult := (hover o ho).result
    rw [((hover o ho).normal.result.subst .var).expose, hresult.expose]
    simp [Overload.normal, hresult.solid.subst_var_subst_var]
  refine union?_congr ?_
  rw [map_map, flatMap_map, flatMap_map, Overload.seen, Overload.eraseDups_taken_flatMap,
    Overload.taken_map haccepts, flatMap_map]
  refine eraseDups_flatMap_congr fun o ho => ?_
  simp [hseen o (Overload.mem_taken.mp ho).1]

end Overloaded

/-! ## Application -/

section Applying

variable (defs : Definitions) {function argument : Ty}

/-- **An application whose matching comes to an end**: if nothing matches, it fails and everything is undone;
    otherwise the argument is narrowed and the results are joined. -/
theorem apply_of_matched (function argument : Ty) (s : Store) {Q : Matched → Store → Prop}
    (h : ∀ noted : Store, noted.arena = s.arena → ∃ constrained split matched after,
      splitArgument function argument noted = (constrained, split) ∧
      matchArguments defs (split.arena.expose constrained).alternatives (split.arena.decompose function) split =
        some (matched, after) ∧ Q matched after) :
    ∃ matched after, Q matched after ∧
      ((matched.results = [] ∧ (∃ e, (s.apply defs function argument).1 = .error e) ∧
          (s.apply defs function argument).2.arena = after.arena.rollback s.arena.snapshot) ∨
        (matched.results ≠ [] ∧
          (s.apply defs function argument).2.arena = (narrowArgument argument matched.arguments after).arena ∧
          ∀ t, union? (matched.results.map (narrowArgument argument matched.arguments after).arena.expose) = some t →
            (s.apply defs function argument).1 = .ok t)) := by
  obtain ⟨constrained, split, matched, after, hsplit, hmatch, hQ⟩ := h (s.note .trace fun _ =>
    "[app] solving: (" ++ s.shown function ++ ") (" ++ s.shown argument ++ ")") rfl
  refine ⟨matched, after, hQ, ?_⟩
  unfold apply
  simp only [hsplit, hmatch]
  by_cases hnil : matched.results = []
  · refine Or.inl ⟨hnil, ?_⟩
    simp only [hnil, isEmpty_nil, if_true]
    exact ⟨⟨_, rfl⟩, rfl⟩
  · refine Or.inr ⟨hnil, ?_⟩
    have hsome : matched.results.isEmpty = false := by simpa using hnil
    simp only [hsome, Bool.false_eq_true, if_false]
    cases hunion : union? (matched.results.map (narrowArgument argument matched.arguments after).arena.expose) with
    | none => exact ⟨rfl, fun t ht => by cases ht⟩
    | some u =>
      refine ⟨rfl, fun t ht => ?_⟩
      cases ht
      rfl

/-- An argument in which no variable is left is not split. -/
theorem splitArgument_of_closed (h : (s.arena.expose argument).vars = []) :
    splitArgument function argument s = (s.arena.follow argument, s) := by
  have hne := (follow_of_closed h).1
  unfold splitArgument
  cases hfollow : s.arena.follow argument with
  | var v => exact absurd hfollow (hne v)
  | _ => rfl

/-- An argument that is no variable at the top is not narrowed. -/
theorem narrowArgument_of_ne_var {matched : List Ty} (h : ∀ v, s.arena.follow argument ≠ .var v) :
    narrowArgument argument matched s = s := by
  unfold narrowArgument
  cases hfollow : s.arena.follow argument with
  | var v => exact absurd hfollow (h v)
  | _ => rfl

/-- **An overloaded function is applied to a ground argument**, where `accepts` says what overlaps: it fails iff no
    overload is taken, and otherwise gives the union of their results. No variable that there was is bound. -/
theorem apply_ground {overloads : List Overload} {accepts : Ty → Ty → Bool}
    (hfun : function.alternatives = overloads.map Overload.type) (hground : function.Ground)
    (harg : (s.arena.expose argument).Ground)
    (haccepts : ∀ x A : Ty, x.Ground → A.Ground → (accepts x A = true ↔ Overlaps x A)) :
    let taken := Overload.taken accepts (s.arena.expose argument).alternatives overloads
    ((taken = [] ∧ ∃ e, (s.apply defs function argument).1 = .error e) ∨
      (taken ≠ [] ∧ ∃ t, (s.apply defs function argument).1 = .ok t ∧
        union? (taken.map fun o => s.arena.expose o.result) = some t)) ∧
    ∀ id < s.arena.size, (s.apply defs function argument).2.arena.binding? id = s.arena.binding? id := by
  intro taken
  let xs := (s.arena.expose argument).alternatives
  let seen := Overload.seen overloads
  have hxs : ∀ x ∈ xs, x.Ground := fun x hx => harg.alternative hx
  have hover := Overload.ground_of_alternatives hfun hground
  have hseen := Overload.ground_seen hover
  have hnormal : ∀ x ∈ xs, ∀ o ∈ overloads, accepts x o.normal.argument = accepts x o.argument := by
    intro x hx o ho
    rw [Bool.eq_iff_iff, haccepts x _ (hxs x hx) (hover o ho).normal.argument,
      haccepts x _ (hxs x hx) (hover o ho).argument]
    exact overlaps_subst_var_right
  -- the overloads are matched as they are seen, each of them once
  obtain ⟨matched, after, ⟨hresults, hspares⟩, hcases⟩ := apply_of_matched defs function argument s
    (Q := fun matched after => matched.results = (Overload.taken accepts xs seen).map (fun o => o.result.subst .var) ∧
      s.arena.Spares (· < s.arena.size) after.arena) (by
      intro noted hnoted
      have hclosed : (noted.arena.expose argument).vars = [] := by
        rw [hnoted]
        exact harg.closed
      have hkept : ∀ id, id < s.arena.size → id < noted.arena.size := fun id hid => hnoted ▸ hid
      obtain ⟨matched, after, hmatch, hresults, hspares⟩ := matchArguments_ground defs haccepts hxs hseen hkept
      refine ⟨_, _, matched, after, splitArgument_of_closed hclosed, ?_, hresults, hnoted ▸ hspares⟩
      rw [(follow_of_closed hclosed).2, hnoted, decompose_overloads hfun hground]
      exact hmatch)
  have hfollow : ∀ v, after.arena.follow argument ≠ .var v := by
    have hne := (follow_of_closed harg.closed).1
    rw [follow_extends_of_ne_var hspares.grows rfl hne]
    exact hne
  rw [narrowArgument_of_ne_var hfollow, hresults] at hcases
  have hnone : Overload.taken accepts xs seen = [] ↔ taken = [] := by
    rw [Overload.taken_eq_nil_iff, Overload.taken_eq_nil_iff]
    refine forall_congr' fun x => imp_congr_right fun hx => ?_
    simp only [seen, Overload.seen, mem_eraseDups, forall_mem_map]
    exact forall_congr' fun o => imp_congr_right fun ho => by rw [hnormal x hx o ho]
  rcases hcases with ⟨hnil, herror, harena⟩ | ⟨hne, harena, hok⟩
  · refine ⟨Or.inl ⟨hnone.mp (map_eq_nil_iff.mp hnil), herror⟩, fun id hid => ?_⟩
    rw [harena, binding?_rollback hspares.grows]
  · have htaken : taken ≠ [] := fun hnil => hne (by rw [hnone.mpr hnil, map_nil])
    have hunion : ∃ t, union? (taken.map fun o => s.arena.expose o.result) = some t := by
      refine exists_union? (by simpa using htaken) (forall_mem_map.mpr fun o ho => ?_)
      have hresult := (hover o (Overload.mem_taken.mp ho).1).result
      rw [hresult.expose]
      exact (hresult.subst .var).solid
    obtain ⟨t, ht⟩ := hunion
    refine ⟨Or.inr ⟨htaken, t, hok t ?_, ht⟩, fun id hid => ?_⟩
    · rw [union?_taken (a := s.arena) after.arena hover hnormal, ht]
    · rw [harena, hspares.same id hid]

end Applying

/-- **Overload resolution is exact on ground types.** An overloaded function applied to an argument fails iff no
    alternative of the argument unifies with what one of the overloads accepts. Otherwise it gives the union of the
    results of the overloads that are taken, as they are seen: each overload once, ordered by the first alternative
    that unifies with what it accepts, and then by its own place. No variable that there was is bound. -/
theorem overload_resolution (c : Context) {function argument : Ty} {overloads : List Overload}
    (hfun : function.alternatives = overloads.map Overload.type) (hground : function.Ground)
    (harg : (c.expose argument).Ground) :
    let xs := (c.expose argument).alternatives
    ((∃ e, (c.apply function argument).1 = .error e) ↔
      ∀ x ∈ xs, ∀ o ∈ overloads, (c.unify x o.argument).1 ≠ .unified) ∧
    ((∃ x ∈ xs, ∃ o ∈ overloads, (c.unify x o.argument).1 = .unified) →
      ∃ t, (c.apply function argument).1 = .ok t ∧
        Ty.union? ((Overload.taken (fun x A => (c.unify x A).1 = .unified) xs overloads).map
          fun o => c.expose o.result) = some t) ∧
    ∀ id < c.store.arena.size,
      (c.apply function argument).2.store.arena.binding? id = c.store.arena.binding? id := by
  intro xs
  have haccepts : ∀ x A : Ty, x.Ground → A.Ground →
      (decide ((c.unify x A).1 = .unified) = true ↔ Overlaps x A) := by
    intro x A hx hA
    rw [decide_eq_true_iff]
    exact (unify_ground hx hA).2.1
  obtain ⟨hout, hsame⟩ := apply_ground c.definitions hfun hground harg haccepts
  have htaken : Overload.taken (fun x A => (c.unify x A).1 = .unified) xs overloads = [] ↔
      ∀ x ∈ xs, ∀ o ∈ overloads, (c.unify x o.argument).1 ≠ .unified := by
    rw [Overload.taken_eq_nil_iff]
    simp only [decide_eq_false_iff_not, ne_eq]
  refine ⟨?_, ?_, hsame⟩
  · rw [← htaken]
    rcases hout with ⟨hnil, herror⟩ | ⟨hne, t, hok, -⟩
    · exact iff_of_true herror hnil
    · refine iff_of_false ?_ hne
      rintro ⟨e, he⟩
      cases hok.symm.trans he
  · rintro ⟨x, hx, o, ho, hunified⟩
    rcases hout with ⟨hnil, -⟩ | ⟨-, hresult⟩
    · exact absurd hunified (htaken.mp hnil x hx o ho)
    · exact hresult

/-- The argument is a variable bound to `Double | Integer`. `Double` takes the third and the fourth overload, `Integer`
    the first, which comes last therefore; the fourth accepts both, but counts once. -/
theorem overload_resolution_reordered :
    let x : Ty := .var ⟨2, "t2"⟩
    let c := ((Context.new "main" false).fresh.2.unify x (.union [.double, .integer])).2
    let overloads : List Overload := [⟨.integer, .string⟩, ⟨.boolean, .integer⟩, ⟨.double, .func .string .string⟩,
      ⟨.union [.integer, .double], .boolean⟩]
    (c.apply (.union (overloads.map Overload.type)) x).1 =
      .ok (.union [.func .string .string, .boolean, .string]) := by
  intro x c overloads
  obtain ⟨-, hok, -⟩ := @overload_resolution c (.union (overloads.map Overload.type)) x overloads rfl
    (by decide +kernel) (by decide +kernel)
  obtain ⟨t, ht, hunion⟩ := hok ⟨.integer, by decide +kernel, ⟨.integer, .string⟩, by decide +kernel, by decide +kernel⟩
  have hresults : Ty.union? ((Overload.taken (fun x A => (c.unify x A).1 = .unified) (c.expose x).alternatives
      overloads).map fun o => c.expose o.result) = some (.union [.func .string .string, .boolean, .string]) := by
    decide +kernel
  rw [hresults, Option.some.injEq] at hunion
  rw [hunion]
  exact ht

/-- **A result is given as it is seen**, and not as it is written: the unions inside it are brought into normal form. -/
theorem result_is_seen_in_normal_form :
    let c := Context.new "main" false
    let result : Ty := .func (.union [.integer, .integer]) .integer
    let function : Ty := .func .integer result
    function.Ground ∧ (c.expose .integer).Ground ∧ (c.unify .integer .integer).1 = .unified ∧
      Ty.union? [result] = some result ∧ (c.apply function .integer).1 = .ok (.func .integer .integer) := by
  decide +kernel

end UnionTyping
