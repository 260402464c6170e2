import UnionTyping.Proofs.Overloads

/-!
# `Proofs.Narrowing` — what an unconstrained argument becomes

An unbound variable that an overloaded function is applied to is split into as many new variables as there are
overloads. If the overloads accept simple types, each new variable is bound to what the first overload that is left
accepts; it then takes all overloads that accept the same type, and leaves the others to the next variable. So every
overload is taken, and the argument is narrowed to the union of all types that are accepted
(`argument_narrowed_to_accepted_types`).
-/

namespace UnionTyping

open List Overload Ty Store

open Ty (Overlaps)

theorem Arena.Spares.mono {kept kept' : Nat → Prop} {a b : Arena} (h : a.Spares kept b)
    (hkept : ∀ id, kept' id → kept id) : a.Spares kept' b :=
  ⟨h.grows, fun id hid => h.same id (hkept id hid)⟩

/-- Simple types overlap only if they are the same. -/
theorem Ty.overlaps_simple {n m : String} : Overlaps (simple n) (simple m) ↔ n = m := by
  rw [overlaps_iff]
  simp [Congruent, offers]

/-- A union of types in which there is nothing to be brought into normal form. -/
theorem Ty.subst_var_of_union? {ms : List Ty} {t : Ty} (h : union? ms = some t) (hsolid : ∀ m ∈ ms, m.Solid)
    (hms : ∀ m ∈ ms, m.subst .var = m) : t.subst .var = t := by
  have hsubst := union?_subst h hsolid fun v => ⟨solid_var v, normal_var v⟩
  rw [map_congr_left hms, map_id', h] at hsubst
  exact (Option.some.inj hsubst).symm

/-! ## Matching unbound variables -/

section Matching

variable (defs : Definitions) {s : Store}

/-- **An unbound argument meets an overload**: it is bound to what the overload accepts, and the new variable to the
    result. -/
theorem unify_overload_free {v y : TyVar} {A R : Ty} (hlt : v.id < s.arena.size)
    (hfree : s.arena.binding? v.id = none) (hylt : y.id < s.arena.size) (hyfree : s.arena.binding? y.id = none)
    (hne : v.id ≠ y.id) (hA : A.Ground) (hR : R.Ground) :
    ∃ b s', s.unify defs (.func (.var y) (.var v)) (.func A R) = (.unified, s') ∧ s.arena.bind? y.id A = .ok b ∧
      b.bind? v.id R = .ok s'.arena := by
  obtain ⟨next, limit, noted, hnext, -, harena, hrun⟩ := compareWithin_overload defs (.var y) A hfree hR
  have hassigns : Assigns noted y A (next (.var y) A 1 noted) :=
    hnext.assigns (by rw [harena]; exact hylt) (by rw [harena]; exact hyfree) hA
  obtain ⟨s₁, hfirst, hbind⟩ := hassigns
  rw [harena] at hbind
  have hfree₁ : s₁.arena.binding? v.id = none := by
    rw [Arena.binding?_bind hbind, if_neg hne]
    exact hfree
  obtain ⟨s₂, hall, hbind₂⟩ :=
    compareAll_overload (p := (.var y, A)) hnext hfirst (by rw [Arena.size_bind hbind]; exact hlt) hfree₁ hR
  rw [Arena.follow_unbound hyfree] at hrun
  obtain ⟨s', hs', hout⟩ := hrun true s₂ hall
  refine ⟨s₁.arena, s', ?_, hbind, hs' ▸ hbind₂⟩
  rw [unify, hout]

/-- **An unbound argument is matched** against overloads that accept simple types: it takes the first of them, and all
    others that accept the same type. -/
theorem matchArgument_free {o : Overload} {rest : List Overload} {y : TyVar} (hover : ∀ p ∈ o :: rest, p.Ground)
    (hsimple : ∀ p ∈ o :: rest, ∃ n, p.argument = .simple n) (hlt : y.id < s.arena.size)
    (hfree : s.arena.binding? y.id = none) :
    ∃ s', matchArgument defs (.var y) ((o :: rest).map type) s =
        some (⟨(rest.filter fun p => !p.argument == o.argument).map type,
          (o :: rest.filter fun p => p.argument == o.argument).map fun p => p.result.subst .var⟩, s') ∧
      s'.arena.binding? y.id = some o.argument ∧
      s.arena.Spares (fun id => id < s.arena.size ∧ id ≠ y.id) s'.arena := by
  obtain ⟨ho, hrest⟩ := forall_mem_cons.mp hover
  obtain ⟨⟨n, hn⟩, hothers⟩ := forall_mem_cons.mp hsimple
  obtain ⟨v, s₀, hv, hid, hsize, hvfree, hfresh⟩ := s.fresh_spec
  have hyfree : s₀.arena.binding? y.id = none := ((hfresh fun _ => True).same _ trivial).trans hfree
  obtain ⟨b, s₁, hunify, hbind, hbind'⟩ := unify_overload_free defs (by rw [hsize]; omega) hvfree
    (by rw [hsize]; omega) hyfree (by omega) ho.argument ho.result
  have hbound : s₁.arena.binding? y.id = some o.argument := by
    rw [Arena.binding?_bind hbind', if_neg (by omega), Arena.binding?_bind hbind, if_pos rfl]
  have hshown : s₁.arena.expose (.var v) = o.result.subst .var :=
    Arena.expose_var_of_ground (by rw [Arena.binding?_bind hbind', if_pos rfl]) ho.result
  have hspares : s.arena.Spares (fun id => id < s.arena.size ∧ id ≠ y.id) s₁.arena :=
    (hfresh _).trans ((Arena.Spares.of_bind hbind fun h => h.2 rfl).trans
      (.of_bind hbind' fun h => Nat.lt_irrefl _ (hid ▸ h.1)))
  -- from here on the argument is ground
  have haccepts : ∀ p ∈ rest, ((p.argument == o.argument) = true ↔ Overlaps o.argument p.argument) := by
    intro p hp
    obtain ⟨m, hm⟩ := hothers p hp
    rw [hn, hm, overlaps_simple, beq_iff_eq, simple.injEq, eq_comm]
  have hkept : ∀ id, (id < s.arena.size ∧ id ≠ y.id) → id < s₁.arena.size :=
    fun id h => Nat.lt_of_lt_of_le h.1 hspares.grows.size_le
  obtain ⟨s', hmore, hspares'⟩ := matchArgument_ground defs (· == o.argument) ho.argument haccepts hrest
    (Arena.follow_var_of_ground hbound ho.argument) hkept
  refine ⟨s', ?_, hspares'.grows.binding? hbound, hspares.trans hspares'⟩
  unfold matchArgument
  simp [hv, type, hunify, hmore, hshown]

/-- **Unbound arguments are matched**, if there are enough of them: all overloads are taken, and the arguments are
    bound in turn to the types that are accepted. -/
theorem matchArguments_free {overloads : List Overload} {ys : List TyVar} (hover : ∀ o ∈ overloads, o.Ground)
    (hsimple : ∀ o ∈ overloads, ∃ n, o.argument = .simple n) (hys : (ys.map TyVar.id).Nodup)
    (hfree : ∀ y ∈ ys, y.id < s.arena.size ∧ s.arena.binding? y.id = none) (henough : overloads.length ≤ ys.length) :
    ∃ matched s', matchArguments defs (ys.map .var) (overloads.map type) s = some (matched, s') ∧
      matched.arguments = (overloads.map argument).eraseDups ∧
      matched.results.Perm (overloads.map fun o => o.result.subst .var) ∧
      Forall₂ (fun y A => s'.arena.binding? y.id = some A) (ys.take matched.arguments.length) matched.arguments ∧
      s.arena.Spares (fun id => id < s.arena.size ∧ id ∉ ys.map TyVar.id) s'.arena := by
  -- each variable leaves fewer overloads to the next one, so there are enough of them left
  induction ys generalizing s overloads with
  | nil =>
    obtain rfl := length_eq_zero_iff.mp (Nat.le_zero.mp henough)
    exact ⟨{}, s, rfl, rfl, .nil, .nil, .refl _⟩
  | cons y ys ih =>
    obtain ⟨hy, hys⟩ := nodup_cons.mp hys
    obtain ⟨⟨hlt, hyfree⟩, hfree⟩ := forall_mem_cons.mp hfree
    cases overloads with
    | nil =>
      -- a variable that finds no overload left is not among the arguments
      obtain ⟨matched, s', hmore, harguments, hresults, hbound, hspares⟩ :=
        ih hover hsimple hys hfree (Nat.zero_le _)
      refine ⟨matched, s', ?_, harguments, hresults, ?_, hspares.mono fun id h => ⟨h.1, ?_⟩⟩
      · rw [map_cons, matchArguments, map_nil, matchArgument]
        rw [map_nil] at hmore
        simp only [Option.bind_eq_bind, Option.bind_some, hmore]
        rfl
      · rw [harguments]
        exact .nil
      · exact fun hmem => h.2 (mem_cons_of_mem _ hmem)
    | cons o rest =>
      obtain ⟨s₁, hmatch, hbind, hspares⟩ := matchArgument_free defs hover hsimple hlt hyfree
      have hothers : ∀ z ∈ ys, z.id < s₁.arena.size ∧ s₁.arena.binding? z.id = none := by
        intro z hz
        obtain ⟨hzlt, hzfree⟩ := hfree z hz
        refine ⟨Nat.lt_of_lt_of_le hzlt hspares.grows.size_le, (hspares.same _ ⟨hzlt, ?_⟩).trans hzfree⟩
        exact fun h => hy (h ▸ mem_map_of_mem hz)
      have hleft : ∀ p ∈ rest.filter fun p => !p.argument == o.argument, p ∈ o :: rest :=
        fun p hp => mem_cons_of_mem _ (mem_filter.mp hp).1
      have hfewer : (rest.filter fun p => !p.argument == o.argument).length ≤ ys.length :=
        (length_filter_le _ _).trans (Nat.le_of_succ_le_succ henough)
      obtain ⟨matched, s', hmore, harguments, hresults, hbound, hspares'⟩ :=
        ih (fun p hp => hover p (hleft p hp)) (fun p hp => hsimple p (hleft p hp)) hys hothers hfewer
      obtain ⟨n, hn⟩ := hsimple o mem_cons_self
      have hshown : s₁.arena.expose (.var y) = o.argument := by
        rw [Arena.expose_var_of_ground hbind (hover o mem_cons_self).argument, hn]
        rfl
      have hfirst : ((o :: rest).map argument).eraseDups = o.argument :: matched.arguments := by
        rw [harguments, map_cons, eraseDups_cons, filter_map]
        rfl
      refine ⟨⟨o.argument :: matched.arguments, (o :: rest.filter fun p => p.argument == o.argument).map
        (fun p => p.result.subst .var) ++ matched.results⟩, s', ?_, hfirst.symm, ?_,
        .cons (hspares'.grows.binding? hbind) hbound, ?_⟩
      · rw [map_cons, matchArguments, hmatch]
        simp only [Option.bind_eq_bind, Option.bind_some, hmore, hshown]
        rfl
      · refine (hresults.append_left _).trans ?_
        rw [← map_append, cons_append]
        exact ((filter_append_perm _ rest).cons o).map _
      · refine (hspares.mono fun id h => ⟨h.1, ?_⟩).trans (hspares'.mono fun id h => ⟨?_, ?_⟩)
        · exact fun hid => h.2 (hid ▸ mem_cons_self)
        · exact Nat.lt_of_lt_of_le h.1 hspares.grows.size_le
        · exact fun hmem => h.2 (mem_cons_of_mem _ hmem)

end Matching

/-! ## Splitting and narrowing -/

section Narrowing

variable {x : TyVar}

/-- **What handing out several variables does.** -/
theorem freshMany_spec (n : Nat) (s : Store) : ∃ (ys : List TyVar) (next : Store),
    freshMany n s = (ys.map .var, next) ∧ ys.map TyVar.id = List.range' s.arena.size n ∧
      next.arena.size = s.arena.size + n ∧ ∀ kept, s.arena.Spares kept next.arena := by
  induction n generalizing s with
  | zero => exact ⟨[], s, rfl, rfl, rfl, fun _ => .refl _⟩
  | succ n ih =>
    obtain ⟨v, s₀, hv, hid, hsize, -, hspares⟩ := s.fresh_spec
    obtain ⟨ys, next, hmany, hids, hsize', hspares'⟩ := ih s₀
    refine ⟨v :: ys, next, ?_, ?_, by omega, fun kept => (hspares kept).trans (hspares' kept)⟩
    · rw [freshMany, hv]
      simp [hmany]
    · rw [map_cons, hids, hid, hsize, range'_succ]

/-- The union of unbound variables is seen as it is. -/
theorem alternatives_expose_vars {a : Arena} {ys : List TyVar} (hne : ys ≠ []) (hys : (ys.map TyVar.id).Nodup)
    (hfree : ∀ y ∈ ys, a.binding? y.id = none) :
    ∃ t, union? (ys.map .var) = some t ∧ (a.expose t).alternatives = ys.map .var := by
  have hvars : ∀ t ∈ ys.map var, t.In (Fragment.solid.withVars (· ∈ ys)) :=
    forall_mem_map.mpr fun y hy => in_var.mpr hy
  have hnormal : ∀ t ∈ ys.map var, t.Normal := forall_mem_map.mpr fun y _ => normal_var y
  have hsolid : ∀ t ∈ ys.map var, t.Solid := forall_mem_map.mpr fun y _ => solid_var y
  obtain ⟨t, ht⟩ := exists_union? (by simpa using hne) hsolid
  have hin : t.In (Fragment.solid.withVars (· ∈ ys)) := In.of_union? trivial hvars ht
  have hexpose : a.expose t = t.subst .var :=
    Arena.exposeWithin_of_within (n := 0) (fun v hv => hfree v (hin.vars hv)) (Nat.zero_le _)
  have hsame : t.subst .var = t := subst_var_of_union? ht hsolid (forall_mem_map.mpr fun _ _ => rfl)
  have hflat : (ys.map var).flatMap alternatives = ys.map .var := by
    rw [flatMap_map]
    exact map_eq_flatMap.symm
  have hdistinct : (ys.map var).Nodup := hys.of_map.map fun _ _ h => var.inj h
  refine ⟨t, ht, ?_⟩
  rw [hexpose, hsame, alternatives_union? ht hnormal, hflat, eraseDups_of_nodup hdistinct]

/-- **An unbound argument is split** into unbound variables, of which there are enough: into itself or into new ones. -/
theorem splitArgument_free {s : Store} (function : Ty) (hlt : x.id < s.arena.size)
    (hfree : s.arena.binding? x.id = none) :
    ∃ constrained split ys, splitArgument function (.var x) s = (constrained, split) ∧
      (split.arena.expose constrained).alternatives = ys.map .var ∧ (ys.map TyVar.id).Nodup ∧
      (∀ y ∈ ys, y.id < split.arena.size ∧ split.arena.binding? y.id = none) ∧
      (s.arena.decompose function).length ≤ ys.length ∧ (ys = [x] ∨ ∀ y ∈ ys, s.arena.size ≤ y.id) ∧
      ∀ kept, s.arena.Spares kept split.arena := by
  unfold splitArgument
  simp only [Arena.follow_unbound hfree]
  by_cases hcount : (s.arena.decompose function).length < 2
  · refine ⟨.var x, s, [x], by rw [if_pos hcount], ?_, by simp, by simp [hlt, hfree], Nat.le_of_lt_succ hcount,
      .inl rfl, fun _ => .refl _⟩
    rw [Arena.expose_unbound hfree]
    rfl
  · obtain ⟨ys, next, hmany, hids, hsize, hspares⟩ := freshMany_spec (s.arena.decompose function).length s
    have hlength : ys.length = (s.arena.decompose function).length := by
      simpa using congrArg List.length hids
    have hys : (ys.map TyVar.id).Nodup := hids ▸ nodup_range'
    have hnew : ∀ y ∈ ys, s.arena.size ≤ y.id ∧ y.id < next.arena.size := by
      intro y hy
      have hmem : y.id ∈ List.range' s.arena.size (s.arena.decompose function).length :=
        hids ▸ mem_map_of_mem hy
      rw [List.mem_range'_1] at hmem
      omega
    have hunbound : ∀ y ∈ ys, next.arena.binding? y.id = none := by
      intro y hy
      rw [(hspares fun _ => True).same _ trivial]
      exact Arena.binding?_eq_none (hnew y hy).1
    have hne : ys ≠ [] := by
      rintro rfl
      simp only [length_nil] at hlength
      omega
    obtain ⟨t, ht, hseen⟩ := alternatives_expose_vars hne hys hunbound
    refine ⟨t, next, ys, ?_, hseen, hys, fun y hy => ⟨(hnew y hy).2, hunbound y hy⟩, hlength.ge,
      .inr fun y hy => (hnew y hy).1, hspares⟩
    rw [if_neg hcount]
    simp [hmany, ht]

/-- **An argument is narrowed** to the types that found a match, unless it is bound already. -/
theorem narrowArgument_free {s : Store} {arguments : List Ty} {T : Ty} (hground : ∀ A ∈ arguments, A.Ground)
    (hsame : ∀ A ∈ arguments, A.subst .var = A) (hT : union? arguments = some T) (hlt : x.id < s.arena.size)
    (hx : s.arena.binding? x.id = none ∨ s.arena.binding? x.id = some T) :
    (narrowArgument (.var x) arguments s).arena.expose (.var x) = T ∧
      s.arena.Spares (· ≠ x.id) (narrowArgument (.var x) arguments s).arena := by
  have hTground : T.Ground :=
    in_ground.mp (In.of_union? trivial (fun A hA => in_ground.mpr (hground A hA)) hT)
  have hTsame : T.subst .var = T := subst_var_of_union? hT (fun A hA => (hground A hA).solid) hsame
  rcases hx with hfree | hbound
  · obtain ⟨b, hb⟩ := Arena.bind_of_unbound T hlt hfree
    have habsent : s.arena.occursIn (.var x) T = false := by
      rw [Arena.occursIn, Arena.expose_unbound hfree, hTground.expose, hTsame]
      simpa [occursIn, var_mem_subterms] using hTground.not_mem_vars x
    have hnarrowed : (narrowArgument (.var x) arguments s).arena = b := by
      have hbind : ∀ noted : Store, noted.arena = s.arena → (noted.bind x.id T).2.arena = b := by
        intro noted hnoted
        rw [Store.bind, hnoted, hb]
      unfold Store.narrowArgument
      simp only [Arena.follow_unbound hfree, hT, habsent, Bool.false_eq_true, if_false]
      exact hbind _ rfl
    rw [hnarrowed]
    refine ⟨?_, .of_bind hb fun h => h rfl⟩
    rw [Arena.expose_var_of_ground (by rw [Arena.binding?_bind hb, if_pos rfl]) hTground, hTsame]
  · have hfollow := Arena.follow_var_of_ground hbound hTground
    rw [narrowArgument_of_ne_var (by rw [hfollow]; exact hTground.ne_var)]
    exact ⟨(Arena.expose_var_of_ground hbound hTground).trans hTsame, .refl _⟩

end Narrowing

/-! ## Application -/

section Applying

variable (defs : Definitions) {function : Ty} {s : Store} {x : TyVar} {overloads : List Overload}

/-- **An unbound argument is split and matched**: all overloads are taken. The argument is bound only if it stands for
    itself, and then to the one type that is accepted. -/
theorem matchArguments_split {T : Ty} (hlt : x.id < s.arena.size) (hfree : s.arena.binding? x.id = none)
    (hfunction : s.arena.decompose function = overloads.map type) (hover : ∀ o ∈ overloads, o.Ground)
    (hsimple : ∀ o ∈ overloads, ∃ n, o.argument = .simple n)
    (hT : union? (overloads.map argument).eraseDups = some T) :
    ∃ constrained split matched after, splitArgument function (.var x) s = (constrained, split) ∧
      matchArguments defs (split.arena.expose constrained).alternatives (overloads.map type) split =
        some (matched, after) ∧
      matched.arguments = (overloads.map argument).eraseDups ∧
      matched.results.Perm (overloads.map fun o => o.result.subst .var) ∧
      (after.arena.binding? x.id = none ∨ after.arena.binding? x.id = some T) ∧
      s.arena.Spares (fun id => id < s.arena.size ∧ id ≠ x.id) after.arena := by
  obtain ⟨constrained, split, ys, hsplit, hseen, hys, hunbound, henough, hwhich, hspares⟩ :=
    splitArgument_free function hlt hfree
  rw [hfunction, length_map] at henough
  obtain ⟨matched, after, hmatch, harguments, hresults, hbound, hspares'⟩ :=
    matchArguments_free defs hover hsimple hys hunbound henough
  refine ⟨constrained, split, matched, after, hsplit, hseen ▸ hmatch, harguments, hresults, ?_, ?_⟩
  · rcases hwhich with rfl | hnew
    · right
      rw [← harguments] at hT
      cases hargs : matched.arguments with
      | nil =>
        rw [hargs] at hT
        cases hT
      | cons A others =>
        rw [hargs] at hT hbound harguments
        obtain ⟨o, ho, hA⟩ := mem_map.mp (mem_eraseDups.mp (harguments ▸ mem_cons_self))
        obtain ⟨n, hn⟩ := hsimple o ho
        obtain rfl : A = .simple n := hA.symm.trans hn
        cases hbound with
        | cons hbind hothers =>
          rw [take_nil] at hothers
          cases hothers
          cases hT
          exact hbind
    · have hnot : x.id ∉ ys.map TyVar.id := by
        intro hmem
        obtain ⟨y, hy, hyx⟩ := mem_map.mp hmem
        have := hnew y hy
        omega
      left
      rw [hspares'.same x.id ⟨Nat.lt_of_lt_of_le hlt (hspares fun _ => True).grows.size_le, hnot⟩,
        (hspares fun _ => True).same _ trivial, hfree]
  · refine (hspares _).trans (hspares'.mono fun id h => ⟨?_, fun hmem => ?_⟩)
    · exact Nat.lt_of_lt_of_le h.1 (hspares fun _ => True).grows.size_le
    · obtain ⟨y, hy, rfl⟩ := mem_map.mp hmem
      rcases hwhich with rfl | hnew
      · exact h.2 (congrArg TyVar.id (mem_singleton.mp hy))
      · exact absurd h.1 (Nat.not_lt.mpr (hnew y hy))

theorem Overload.seen_simple (hsimple : ∀ o ∈ overloads, ∃ n, o.argument = .simple n) :
    ∀ o ∈ seen overloads, ∃ n, o.argument = .simple n := by
  intro o ho
  obtain ⟨p, hp, rfl⟩ := mem_seen.mp ho
  obtain ⟨n, hn⟩ := hsimple p hp
  exact ⟨n, by rw [normal, hn]; rfl⟩

/-- The accepted types are the same, whether the overloads are taken as they are seen or as they are written. -/
theorem union?_seen_arguments (hsimple : ∀ o ∈ overloads, ∃ n, o.argument = .simple n) :
    union? ((seen overloads).map argument).eraseDups = union? (overloads.map argument) := by
  refine union?_congr ?_
  rw [eraseDups_flatMap_eraseDups, flatMap_map, seen, eraseDups_flatMap_eraseDups, flatMap_map, flatMap_map]
  refine eraseDups_flatMap_congr fun o ho => ?_
  obtain ⟨n, hn⟩ := hsimple o ho
  rw [normal, hn]
  rfl

/-- **An overloaded function is applied to an unbound variable**: all overloads are taken, and the variable becomes the
    union of what they accept. -/
theorem apply_free (hlt : x.id < s.arena.size) (hfree : s.arena.binding? x.id = none)
    (hfun : function.alternatives = overloads.map type) (hground : function.Ground)
    (hsimple : ∀ o ∈ overloads, ∃ n, o.argument = .simple n) :
    ∃ t results, (s.apply defs function (.var x)).1 = .ok t ∧
      union? (overloads.map argument) = some ((s.apply defs function (.var x)).2.arena.expose (.var x)) ∧
      union? results = some t ∧
      results.Perm ((seen overloads).map fun o => o.result.subst .var) ∧
      ∀ id < s.arena.size, id ≠ x.id → (s.apply defs function (.var x)).2.arena.binding? id = s.arena.binding? id := by
  let seen := seen overloads
  have hover : ∀ o ∈ seen, o.Ground := ground_seen (ground_of_alternatives hfun hground)
  have hseen : ∀ o ∈ seen, ∃ n, o.argument = .simple n := seen_simple hsimple
  obtain ⟨o, ho⟩ : ∃ o, o ∈ seen := by
    have hne := (in_solid.mpr hground.solid).alternatives_ne_nil not_false
    rw [hfun, ne_eq, map_eq_nil_iff] at hne
    obtain ⟨o, ho⟩ := exists_mem_of_ne_nil overloads hne
    exact ⟨o.normal, mem_seen.mpr ⟨o, ho, rfl⟩⟩
  have harguments : ∀ A ∈ (seen.map argument).eraseDups, A.Ground ∧ A.subst .var = A := by
    intro A hA
    obtain ⟨o, ho, rfl⟩ := mem_map.mp (mem_eraseDups.mp hA)
    obtain ⟨n, hn⟩ := hseen o ho
    exact ⟨(hover o ho).argument, by rw [hn]; rfl⟩
  obtain ⟨T, hT⟩ : ∃ T, union? (seen.map argument).eraseDups = some T :=
    exists_union? (ne_nil_of_mem (mem_eraseDups.mpr (mem_map_of_mem ho))) fun A hA => (harguments A hA).1.solid
  obtain ⟨matched, after, ⟨hmatched, hresults, hx, hspares⟩, hcases⟩ := apply_of_matched defs function (.var x) s
    (Q := fun matched after => matched.arguments = (seen.map argument).eraseDups ∧
      matched.results.Perm (seen.map fun o => o.result.subst .var) ∧
      (after.arena.binding? x.id = none ∨ after.arena.binding? x.id = some T) ∧
      s.arena.Spares (fun id => id < s.arena.size ∧ id ≠ x.id) after.arena) (by
      intro noted hnoted
      have hfunction : noted.arena.decompose function = seen.map type := decompose_overloads hfun hground
      obtain ⟨constrained, split, matched, after, hsplit, hmatch, hQ⟩ :=
        matchArguments_split defs (hnoted ▸ hlt) (hnoted ▸ hfree) hfunction hover hseen hT
      refine ⟨constrained, split, matched, after, hsplit, ?_, hnoted ▸ hQ⟩
      rw [decompose_overloads hfun hground]
      exact hmatch)
  have hlt' : x.id < after.arena.size := Nat.lt_of_lt_of_le hlt hspares.grows.size_le
  obtain ⟨hnarrowed, hspares'⟩ :=
    narrowArgument_free (fun A hA => (harguments A hA).1) (fun A hA => (harguments A hA).2) hT hlt' hx
  have hground' : ∀ r ∈ matched.results, r.Ground ∧ r.subst .var = r := by
    intro r hr
    obtain ⟨o, ho, rfl⟩ := mem_map.mp (hresults.mem_iff.mp hr)
    have hresult := (hover o ho).result
    exact ⟨hresult.subst .var, hresult.solid.subst_var_subst_var⟩
  have hsome : matched.results ≠ [] := ne_nil_of_mem (hresults.mem_iff.mpr (mem_map_of_mem ho))
  rcases hcases with ⟨hnil, -⟩ | ⟨-, harena, hok⟩
  · exact absurd hnil hsome
  · rw [hmatched] at harena hok
    obtain ⟨t, ht⟩ := exists_union? hsome fun r hr => (hground' r hr).1.solid
    refine ⟨t, matched.results, hok t ?_, ?_, ht, hresults, fun id hid hne => ?_⟩
    · rw [map_congr_left fun r hr => ((hground' r hr).1.expose _).trans (hground' r hr).2, map_id', ht]
    · rw [harena, hnarrowed, ← union?_seen_arguments hsimple, hT]
    · rw [harena, hspares'.same id hne, hspares.same id ⟨hid, hne⟩]

end Applying

/-- **An unconstrained argument is narrowed to exactly the accepted types.** An overloaded function that accepts simple
    types can be applied to every unbound variable. The variable becomes the union of the types that are accepted, the
    alternatives of the result are those of the union of all results, and no other variable that there was is bound. -/
theorem argument_narrowed_to_accepted_types (c : Context) {function : Ty} {overloads : List Overload} {x : TyVar}
    (hlt : x.id < c.store.arena.size) (hfree : c.store.arena.binding? x.id = none)
    (hfun : function.alternatives = overloads.map Overload.type) (hground : function.Ground)
    (hsimple : ∀ o ∈ overloads, ∃ n, o.argument = .simple n) :
    ∃ t u, (c.apply function (.var x)).1 = .ok t ∧
      Ty.union? (overloads.map Overload.argument) = some ((c.apply function (.var x)).2.expose (.var x)) ∧
      Ty.union? (overloads.map fun o => c.expose o.result) = some u ∧
      (∀ y, y ∈ t.alternatives ↔ y ∈ u.alternatives) ∧
      ∀ id < c.store.arena.size, id ≠ x.id →
        (c.apply function (.var x)).2.store.arena.binding? id = c.store.arena.binding? id := by
  obtain ⟨t, results, hok, hseen, ht, hresults, hsame⟩ := apply_free c.definitions hlt hfree hfun hground hsimple
  have hover := Overload.ground_of_alternatives hfun hground
  have hnormal : ∀ o ∈ overloads, o.normal.result.subst .var = c.expose o.result := by
    intro o ho
    have hresult := (hover o ho).result
    exact hresult.solid.subst_var_subst_var.trans (hresult.expose _).symm
  -- the results that were taken are those of all overloads
  have hmem : ∀ r, r ∈ results ↔ r ∈ overloads.map fun o => c.expose o.result := by
    intro r
    rw [hresults.mem_iff, ← List.map_congr_left hnormal]
    simp only [List.mem_map, Overload.mem_seen, exists_exists_and_eq_and]
  have hwell : ∀ r ∈ overloads.map fun o => c.expose o.result, r.Solid ∧ r.Normal := by
    refine List.forall_mem_map.mpr fun o ho => ?_
    have hresult := (hover o ho).result
    rw [show c.expose o.result = o.result.subst .var from hresult.expose _]
    exact ⟨(hresult.subst .var).solid, hresult.solid.normal_subst fun v _ => ⟨Ty.solid_var v, Ty.normal_var v⟩⟩
  have hne : (overloads.map fun o => c.expose o.result) ≠ [] := by
    intro hnil
    rw [List.map_eq_nil_iff.mp hnil] at hseen
    cases hseen
  obtain ⟨u, hu⟩ := Ty.exists_union? hne fun r hr => (hwell r hr).1
  refine ⟨t, u, hok, hseen, hu, fun y => ?_, hsame⟩
  rw [Ty.alternatives_union? ht fun r hr => (hwell r ((hmem r).mp hr)).2,
    Ty.alternatives_union? hu fun r hr => (hwell r hr).2, Ty.mem_flattened, Ty.mem_flattened]
  simp only [hmem]

/-- Two overloads accept `Integer`, so the variable is split into three, of which two are used; the results come in the
    order of the accepted types. -/
theorem argument_narrowed_to_accepted_types_grouped :
    let c := (Context.new "main" false).fresh.2
    let x : TyVar := ⟨2, "t2"⟩
    let overloads : List Overload := [⟨.integer, .string⟩, ⟨.double, .boolean⟩, ⟨.integer, .func .double .double⟩]
    let function := Ty.union (overloads.map Overload.type)
    (c.apply function (.var x)).1 = .ok (.union [.string, .func .double .double, .boolean]) ∧
      (c.apply function (.var x)).2.expose (.var x) = .union [.integer, .double] := by
  intro c x overloads function
  obtain ⟨t, u, -, hseen, -⟩ := @argument_narrowed_to_accepted_types c function overloads x (by decide +kernel)
    (by decide +kernel) rfl (by decide +kernel) (by simp [overloads, Ty.integer, Ty.double])
  refine ⟨by decide +kernel, ?_⟩
  have hunion : Ty.union? (overloads.map Overload.argument) = some (.union [.integer, .double]) := by decide +kernel
  exact Option.some.inj (hseen.symm.trans hunion)

/-- **A result without alternatives cannot be given**, although the argument is accepted; and a result is given as it is
    seen, not as it is written. -/
theorem hollow_result_is_refused :
    let c := (Context.new "main" false).fresh.2
    let x : TyVar := ⟨2, "t2"⟩
    let raw : Ty := .func (.union [.integer, .integer]) .integer
    c.store.arena.binding? x.id = none ∧
      (c.apply (.func .integer (.union [])) (.var x)).1.isOk = false ∧
      (c.apply (.func .integer raw) (.var x)).1 = .ok (.func .integer .integer) ∧
      Ty.union? [raw] = some raw := by
  decide +kernel

end UnionTyping
