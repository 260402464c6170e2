import UnionTyping.Proofs.Termination
import UnionTyping.Proofs.WellFormed

/-!
# `Proofs.FirstOrder` — unification without unions and sums

On simple types, functions, records and variables, unification is what it is expected to be: it succeeds
exactly if some substitution makes the two types equal, it then makes them equal, and it commits itself to
nothing that was not necessary (`firstOrder_unification`).

Soundness, completeness and generality are proved at once. A substitution *solves* an arena if it gives
every bound variable the same value as its binding. What a comparison is shown to do is this: if it
succeeds, the solutions of the arena afterwards are those solutions of the arena before that make the two
types equal; if it fails, no solution does (`Decides`). This composes along sequences of comparisons, since
nothing is said about what the bindings look like. The solution that the arena itself provides is `value`.
-/

namespace UnionTyping

open List Ty Arena

/-! ## Substitution without unions -/

variable {t : Ty} {v : TyVar} {σ : TyVar → Ty}

/-- Neither unions and sums nor placeholders, and one name for every number. -/
structure Fragment.FirstOrder (F : Fragment) : Prop where
  coherent : F.Coherent
  choices : ¬F.choices
  placeholders : ¬F.placeholders

namespace Ty

variable {F : Fragment}

/-- Without unions, substituting twice is substituting once. -/
theorem subst_subst (hF : ¬F.choices) {f g : TyVar → Ty} (ht : t.In F) :
    (t.subst f).subst g = t.subst fun v => (f v).subst g := by
  induction t using rigidly with
  | var v => rfl
  | union ms ih => exact absurd ht.admits.1 hF
  | rigid t hrigid ih => exact hrigid.subst_subst fun c hc => ih c hc (ht.child hc)

/-- What is put in for a variable is no larger than the whole. -/
theorem weigh_subst_le (hF : ¬F.choices) {f : TyVar → Nat} (ht : t.In F) (hv : v ∈ t.vars) :
    (σ v).weigh f ≤ (t.subst σ).weigh f := by
  induction t using rigidly with
  | var w => exact Nat.le_of_eq (by rw [mem_singleton.mp hv, subst])
  | union ms ih => exact absurd ht.admits.1 hF
  | rigid t hrigid ih =>
    rcases mem_vars_iff.mp hv with h | ⟨c, hc, hv⟩
    · exact absurd h (hrigid.ne_var v)
    · have hchild : c.subst σ ∈ (t.subst σ).children := by
        rw [children_subst hrigid]
        exact mem_map_of_mem hc
      exact Nat.le_trans (ih c hc (ht.child hc) hv) (Nat.le_of_lt (weigh_child_lt hchild))

/-- **No substitution makes a variable equal to a type that properly contains it.** -/
theorem subst_ne_of_occurs (hF : ¬F.choices) {c : Ty} (ht : t.In F) (hc : c ∈ t.children) (hv : v ∈ c.vars) :
    σ v ≠ t.subst σ := by
  have hrigid : t.IsRigid := by
    cases t with
    | var w => cases hc
    | union ms => exact absurd ht.admits.1 hF
    | _ => trivial
  have hchild : c.subst σ ∈ (t.subst σ).children := by
    rw [children_subst hrigid]
    exact mem_map_of_mem hc
  intro heq
  have hle := weigh_subst_le hF (f := fun _ => 1) (σ := σ) (ht.child hc) hv
  have hlt := weigh_child_lt (f := fun _ => 1) hchild
  rw [heq] at hle
  omega

theorem eq_of_equivList {ts us : List Ty} (heq : ∀ t ∈ ts, ∀ u ∈ us, t.equiv u = true → t = u)
    (h : equivList ts us = true) : ts = us := by
  induction ts generalizing us with
  | nil =>
    cases us with
    | nil => rfl
    | cons u us => cases h
  | cons t ts ih =>
    cases us with
    | nil => cases h
    | cons u us =>
      rw [equivList, Bool.and_eq_true] at h
      have ht := heq t mem_cons_self u mem_cons_self h.1
      have hts := ih (fun t ht u hu => heq t (mem_cons_of_mem _ ht) u (mem_cons_of_mem _ hu)) h.2
      rw [ht, hts]

/-- Fields are compared label by label and type by type. -/
theorem equivFields_iff {fs gs : List (String × Ty)} :
    equivFields fs gs = true ↔ fs.map Prod.fst = gs.map Prod.fst ∧
      equivList (fs.map Prod.snd) (gs.map Prod.snd) = true := by
  induction fs generalizing gs with
  | nil => cases gs <;> simp [equivFields, equivList]
  | cons e fs ih =>
    cases gs with
    | nil => simp [equivFields]
    | cons d gs =>
      obtain ⟨k, t⟩ := e
      obtain ⟨m, u⟩ := d
      simp only [equivFields, equivList, map_cons, Bool.and_eq_true, decide_eq_true_iff, ih, List.cons.injEq]
      tauto

/-- Fields are equal if their labels and their types are. -/
theorem fields_eq_iff {fs gs : List (String × Ty)} :
    fs = gs ↔ fs.map Prod.fst = gs.map Prod.fst ∧ fs.map Prod.snd = gs.map Prod.snd := by
  refine ⟨fun h => h ▸ ⟨rfl, rfl⟩, fun h => ?_⟩
  have hfs : fs = (gs.map Prod.fst).zip (gs.map Prod.snd) := zip_of_prod h.1 h.2
  have hgs : gs = (gs.map Prod.fst).zip (gs.map Prod.snd) := zip_of_prod rfl rfl
  rw [hfs, ← hgs]

/-- Where every number has one name and there are no unions, equivalent types are equal. -/
theorem eq_of_equiv (hF : F.FirstOrder) {u : Ty} (ht : t.In F) (hu : u.In F) (h : t.equiv u = true) : t = u := by
  induction t using structural generalizing u with
  | simple n =>
    cases u with
    | simple m => simpa [equiv] using h
    | _ => cases h
  | func a r ha hr =>
    cases u with
    | func b t =>
      rw [in_func] at ht hu
      rw [equiv, Bool.and_eq_true] at h
      rw [ha ht.1 hu.1 h.1, hr ht.2 hu.2 h.2]
    | _ => cases h
  | record n as fs has hfs =>
    cases u with
    | record m bs gs =>
      rw [equiv, Bool.and_eq_true, Bool.and_eq_true, decide_eq_true_iff, equivFields_iff] at h
      have hargs : as = bs := eq_of_equivList (fun t hm u hn => has t hm
        (ht.child (mem_append_left _ hm)) (hu.child (mem_append_left _ hn))) h.1.2
      have htypes : fs.map Prod.snd = gs.map Prod.snd := by
        refine eq_of_equivList (fun t hm u hn => ?_) h.2.2
        obtain ⟨e, he, rfl⟩ := mem_map.mp hm
        exact hfs e he (ht.child (mem_append_right _ hm)) (hu.child (mem_append_right _ hn))
      rw [h.1.1, hargs, fields_eq_iff.mpr ⟨h.2.1, htypes⟩]
    | _ => cases h
  | algebraic n as os has hos => exact absurd ht.admits.1 hF.choices
  | recursive n as has => exact absurd ht.admits hF.placeholders
  | union ms hms => exact absurd ht.admits.1 hF.choices
  | var v =>
    cases u with
    | var w =>
      rw [in_var] at ht hu
      rw [equiv, decide_eq_true_iff] at h
      rw [hF.coherent v w ht hu h]
    | _ => cases h

end Ty

/-! ## What a step of a comparison means -/

variable {l r : Ty} {defs : Definitions}

/-- Two lists have the same images if all their pairs have. -/
theorem map_eq_map_iff_zip {α β : Type} {f : α → β} {xs ys : List α} (h : xs.length = ys.length) :
    xs.map f = ys.map f ↔ ∀ p ∈ xs.zip ys, f p.1 = f p.2 := by
  induction xs generalizing ys with
  | nil =>
    cases ys with
    | nil => simp
    | cons y ys => cases h
  | cons x xs ih =>
    cases ys with
    | nil => cases h
    | cons y ys =>
      rw [map_cons, map_cons, List.cons.injEq, ih (Nat.succ.inj h), zip_cons_cons, forall_mem_cons]

/-- The plan says when the two types become equal: never or always, or when all pairs do. -/
def Plan.Means (l r : Ty) : Plan → Prop
  | .decide verdict => ∀ σ, l.subst σ = r.subst σ ↔ verdict = true
  | .bind v t => (l = t ∧ r = .var v) ∨ (l = .var v ∧ r = t)
  | .all pairs verdict => verdict = true ∧
      ∀ σ, l.subst σ = r.subst σ ↔ ∀ p ∈ pairs, p.1.subst σ = p.2.subst σ
  | .any _ _ => False

theorem Plan.means_pairwise {ls rs : List Ty} {more : List (Ty × Ty)}
    (h : ∀ σ, l.subst σ = r.subst σ ↔ ls.map (subst σ) = rs.map (subst σ) ∧ ∀ p ∈ more, p.1.subst σ = p.2.subst σ) :
    (Plan.pairwise ls rs more true).Means l r := by
  unfold Plan.pairwise
  split
  · rename_i hlen
    refine ⟨rfl, fun σ => ?_⟩
    rw [h, map_eq_map_iff_zip hlen, forall_mem_append]
  · rename_i hlen
    intro σ
    rw [h]
    refine iff_of_false (fun heq => hlen ?_) (by simp)
    have hlen := congrArg List.length heq.1
    rwa [length_map, length_map] at hlen

/-- A type of a first-order fragment is a variable, a simple type, a function or a record. -/
theorem Ty.In.firstOrder_cases {F : Fragment} (hF : F.FirstOrder) (ht : t.In F) :
    (∃ v, t = .var v) ∨ (∃ n, t = .simple n) ∨ (∃ b r, t = .func b r) ∨ ∃ n as fs, t = .record n as fs := by
  cases t with
  | union ms => exact absurd ht.admits.1 hF.choices
  | algebraic n as os => exact absurd ht.admits.1 hF.choices
  | recursive n as => exact absurd ht.admits hF.placeholders
  | var v => exact .inl ⟨v, rfl⟩
  | simple n => exact .inr (.inl ⟨n, rfl⟩)
  | func b r => exact .inr (.inr (.inl ⟨b, r, rfl⟩))
  | record n as fs => exact .inr (.inr (.inr ⟨n, as, fs, rfl⟩))

/-- Records become equal if they have one name and the same fields, and their parts become equal. -/
theorem plan_means_record {a : Arena} {n m : String} {as bs : List Ty} {fs gs : List (String × Ty)} :
    (plan defs a (.record n as fs) (.record m bs gs)).Means (.record n as fs) (.record m bs gs) := by
  have hsubst : ∀ σ, (record n as fs).subst σ = (record m bs gs).subst σ ↔
      (n = m ∧ fs.map Prod.fst = gs.map Prod.fst) ∧ as.map (subst σ) = bs.map (subst σ) ∧
        (fs.map Prod.snd).map (subst σ) = (gs.map Prod.snd).map (subst σ) := by
    intro σ
    simp only [subst, substList_eq_map, substFields_eq_map, record.injEq, fields_eq_iff, map_map, Function.comp_def]
    tauto
  simp only [plan]
  split
  · rename_i hsame
    refine Plan.means_pairwise fun σ => ?_
    have hlen : (fs.map Prod.snd).length = (gs.map Prod.snd).length := by
      have hlen := congrArg List.length hsame.2
      simpa using hlen
    rw [hsubst, map_eq_map_iff_zip hlen]
    exact and_iff_right hsame
  · rename_i hdiffer
    intro σ
    rw [hsubst]
    exact iff_of_false (fun h => hdiffer h.1) (by simp)

/-- **Every plan for first-order types says when they become equal.** -/
theorem plan_means {F : Fragment} (hF : F.FirstOrder) {a : Arena} (hl : l.In F) (hr : r.In F) :
    (plan defs a l r).Means l r := by
  rcases hr.firstOrder_cases hF with ⟨v, rfl⟩ | hr
  · exact Or.inl ⟨rfl, rfl⟩
  rcases hl.firstOrder_cases hF with ⟨v, rfl⟩ | hl
  · rcases hr with ⟨m, rfl⟩ | ⟨b, t, rfl⟩ | ⟨m, bs, gs, rfl⟩ <;> exact Or.inr ⟨rfl, rfl⟩
  -- Neither is a variable, so only types of one kind become equal.
  rcases hr with ⟨m, rfl⟩ | ⟨b, t, rfl⟩ | ⟨m, bs, gs, rfl⟩
  · rcases hl with ⟨n, rfl⟩ | ⟨b', t', rfl⟩ | ⟨n, as, fs, rfl⟩ <;> exact fun σ => by simp [subst]
  · rcases hl with ⟨n, rfl⟩ | ⟨b', t', rfl⟩ | ⟨n, as, fs, rfl⟩
    · exact fun σ => by simp [subst]
    · refine ⟨rfl, fun σ => ?_⟩
      rw [forall_mem_cons, forall_mem_singleton]
      simp only [subst, func.injEq]
      -- The arguments may be compared the other way round.
      split
      · exact and_congr_left fun _ => eq_comm
      · exact Iff.rfl
    · exact fun σ => by simp [subst]
  · rcases hl with ⟨n, rfl⟩ | ⟨b', t', rfl⟩ | ⟨n, as, fs, rfl⟩
    · exact fun σ => by simp [subst]
    · exact fun σ => by simp [subst]
    · exact plan_means_record

/-! ## Solutions -/

namespace Arena

/-- The arena is ready for a comparison in the fragment. -/
structure Ready (F : Fragment) (a : Arena) : Prop where
  closed : a.Closed F
  acyclic : a.Acyclic
  allocated : ∀ v, F.vars v → v.id < a.size

/-- **The substitution solves the arena**: bound variables have the same values as their bindings. -/
def Solves (F : Fragment) (a : Arena) (σ : TyVar → Ty) : Prop :=
  ∀ v t, F.vars v → a.binding? v.id = some t → σ v = t.subst σ

/-- The substitution applied to what the variables stand for. -/
def extend (a : Arena) (σ : TyVar → Ty) : TyVar → Ty :=
  fun v => (a.value v).subst σ

section Solutions

variable {F : Fragment} {a b : Arena}

theorem Ready.of_confined (hF : F.FirstOrder) (ha : a.Ready F) (hbinds : a.Binds b)
    (hconf : Confined F a b) : b.Ready F :=
  ⟨hconf.closed, hconf.acyclic hF.coherent ha.acyclic, fun v hv => hbinds.size_eq ▸ ha.allocated v hv⟩

/-- A solution sees through bindings. -/
theorem Solves.value (hF : F.FirstOrder) (ha : a.Ready F) (hσ : a.Solves F σ) (hv : F.vars v) :
    (a.value v).subst σ = σ v := by
  induction v using ha.acyclic.induction with
  | unbound v hfree => rw [value_unbound hfree, subst]
  | bound v t ht ih =>
    have htF := ha.closed v t hv ht
    rw [value_bound ht, expose_unfold ha.acyclic, subst_subst hF.choices htF, hσ v t hv ht]
    exact subst_congr fun w hw => ih w hw (htF.vars hw)

/-- A solution does not tell a type from its exposed form. -/
theorem Solves.expose (hF : F.FirstOrder) (ha : a.Ready F) (hσ : a.Solves F σ) (ht : t.In F) :
    (a.expose t).subst σ = t.subst σ := by
  rw [expose_unfold ha.acyclic, subst_subst hF.choices ht]
  exact subst_congr fun v hv => hσ.value hF ha (ht.vars hv)

theorem Solves.follow (hF : F.FirstOrder) (ha : a.Ready F) (hσ : a.Solves F σ) (ht : t.In F) :
    (a.follow t).subst σ = t.subst σ := by
  rw [← hσ.expose hF ha (ha.closed.follow ht), expose_follow ha.acyclic, hσ.expose hF ha ht]

/-- **The arena provides a solution of itself.** -/
theorem solves_value (ha : a.Acyclic) : a.Solves F a.value := by
  intro v t _ ht
  rw [value_bound ht, expose_unfold ha]

/-- **Every substitution of the unbound variables extends to a solution**, by what it makes of the values
    of the bound ones. -/
theorem solves_extend (hF : F.FirstOrder) (ha : a.Ready F) (σ : TyVar → Ty) : a.Solves F (a.extend σ) := by
  intro v t hv ht
  have htF := ha.closed v t hv ht
  unfold extend
  rw [value_bound ht, expose_unfold ha.acyclic, subst_subst hF.choices htF]

theorem subst_extend (hF : F.FirstOrder) (ha : a.Ready F) (σ : TyVar → Ty) (ht : t.In F) :
    t.subst (a.extend σ) = (a.expose t).subst σ := by
  rw [expose_unfold ha.acyclic, subst_subst hF.choices ht]
  rfl

theorem extend_unbound (hfree : a.binding? v.id = none) : a.extend σ v = σ v := by
  unfold extend
  rw [value_unbound hfree, subst]

/-- The solutions after one more binding. -/
theorem solves_bind (hF : F.FirstOrder) (hv : F.vars v) (hb : a.bind? v.id t = .ok b) :
    b.Solves F σ ↔ a.Solves F σ ∧ σ v = t.subst σ := by
  constructor
  · intro hσ
    refine ⟨fun w u hw hu => hσ w u hw ?_, hσ v t hv ?_⟩
    · exact (Extends.of_bind hb).binding? hu
    · rw [binding?_bind hb, if_pos rfl]
  · rintro ⟨hσ, hvt⟩ w u hw hu
    rw [binding?_bind hb] at hu
    split at hu
    · rename_i hid
      injection hu with hu
      rw [hF.coherent w v hw hv hid, hvt, hu]
    · exact hσ w u hw hu

end Solutions
end Arena

/-! ## Comparisons decide equations -/

/-- **A comparison decides an equation** between types: if it succeeds, the solutions afterwards are the
    earlier ones for which the equation holds; if it fails, it holds for none. -/
structure Decides (F : Fragment) (Equation : (TyVar → Ty) → Prop) (a : Arena) (ok : Bool) (b : Arena) :
    Prop where
  success : ok = true → ∀ σ, b.Solves F σ ↔ a.Solves F σ ∧ Equation σ
  failure : ok = false → ∀ σ, a.Solves F σ → ¬Equation σ

section Deciding

variable {s : Store} {next : Comparison} {F : Fragment} {a b : Arena} {E : (TyVar → Ty) → Prop} {ok : Bool}

theorem Decides.congr {E' : (TyVar → Ty) → Prop} (h : Decides F E a ok b) (hE : ∀ σ, a.Solves F σ → (E σ ↔ E' σ)) :
    Decides F E' a ok b := by
  refine ⟨fun hok σ => ?_, fun hok σ hσ hE' => h.failure hok σ hσ ((hE σ hσ).mpr hE')⟩
  rw [h.success hok]
  exact and_congr_right fun hσ => hE σ hσ

theorem Decides.of_iff (h : ∀ σ, a.Solves F σ → (E σ ↔ ok = true)) : Decides F E a ok a := by
  refine ⟨fun hok σ => ?_, fun hok σ hσ hEσ => ?_⟩
  · exact ⟨fun hσ => ⟨hσ, (h σ hσ).mpr hok⟩, fun hσ => hσ.1⟩
  · rw [(h σ hσ).mp hEσ] at hok
    cases hok

/-- The comparison stays in the fragment and decides whether the two types become equal. -/
abbrev Comparison.Deciding (F : Fragment) (compare : Comparison) : Prop :=
  compare.Meets fun l r s ok s' =>
    (s.arena.Binds s'.arena ∧ (l.In F → r.In F → s.arena.Closed F → Confined F s.arena s'.arena)) ∧
    (l.In F → r.In F → s.arena.Ready F →
      Decides F (fun σ => l.subst σ = r.subst σ) s.arena ok s'.arena)

theorem Comparison.Deciding.confining {compare : Comparison} (h : compare.Deciding F) : compare.Confining F :=
  fun l r level s ok s' hrun => (h l r level s ok s' hrun).1

/-- A sequence of comparisons decides all equations together. -/
theorem compareAll_decides (hF : F.FirstOrder) (hnext : next.Deciding F) {level : Nat}
    {pairs : List (Ty × Ty)} {s' : Store} (h : compareAll next level true pairs s = some (ok, s'))
    (hpairs : ∀ p ∈ pairs, p.1.In F ∧ p.2.In F) (hs : s.arena.Ready F) :
    Decides F (fun σ => ∀ p ∈ pairs, p.1.subst σ = p.2.subst σ) s.arena ok s'.arena := by
  induction pairs generalizing s with
  | nil =>
    cases h
    exact .of_iff fun σ _ => by simp
  | cons p ps ih =>
    obtain ⟨⟨ok₁, s₁⟩, hfirst, h⟩ := Option.bind_eq_some_iff.mp h
    obtain ⟨hp, hps⟩ := forall_mem_cons.mp hpairs
    obtain ⟨⟨hbinds, hconf⟩, hdecides⟩ := hnext p.1 p.2 level s ok₁ s₁ hfirst
    have hdecides := hdecides hp.1 hp.2 hs
    simp only [] at h
    split at h
    · rename_i hok₁
      -- The rest is decided among those solutions that the first pair has left.
      have hs₁ := hs.of_confined hF hbinds (hconf hp.1 hp.2 hs.closed)
      have hrest := ih h hps hs₁
      refine ⟨fun hok σ => ?_, fun hok σ hσ heq => ?_⟩
      · rw [hrest.success hok, hdecides.success hok₁, forall_mem_cons, and_assoc]
      · obtain ⟨heqp, heqps⟩ := forall_mem_cons.mp heq
        exact hrest.failure hok σ ((hdecides.success hok₁ σ).mpr ⟨hσ, heqp⟩) heqps
    · rename_i hok₁
      cases h
      refine ⟨nofun, fun _ σ hσ heq => ?_⟩
      exact hdecides.failure (Bool.eq_false_iff.mpr hok₁) σ hσ (heq p mem_cons_self)

/-- Binding a variable, unless it occurs in the type, decides whether the two become equal. -/
theorem bindTo_decides (hF : F.FirstOrder) (hs : s.arena.Ready F) (hv : F.vars v) (ht : t.In F)
    (hfree : s.arena.binding? v.id = none) :
    Decides F (fun σ => σ v = t.subst σ) s.arena (bindTo v t s).1 (bindTo v t s).2.arena := by
  unfold bindTo
  split
  · rename_i hoccurs
    obtain ⟨c, hc, hmem⟩ := any_eq_true.mp hoccurs
    have hvc : v ∈ c.vars := var_mem_subterms.mp (contains_iff_mem.mp hmem)
    refine .of_iff fun σ hσ => ?_
    rw [← hσ.expose hF hs ht]
    exact iff_of_false (subst_ne_of_occurs hF.choices (hs.closed.expose ht) hc hvc) (by simp)
  · rcases s.bind_cases v.id t with ⟨b, hb, hok, hb'⟩ | ⟨hfail, _, _⟩
    · rw [hok, hb']
      exact ⟨fun _ σ => solves_bind hF hv hb, nofun⟩
    · obtain ⟨b, hb⟩ := bind_of_unbound t (hs.allocated v hv) hfree
      exact absurd hb (hfail b)

/-- Types that expose to equal types have the same instances. -/
theorem Arena.Solves.of_equivalent (hF : F.FirstOrder) (ha : a.Ready F) (hσ : a.Solves F σ) (hl : l.In F)
    (hr : r.In F) (h : a.equivalent l r = true) : l.subst σ = r.subst σ := by
  have hexpose := eq_of_equiv hF (ha.closed.expose hl) (ha.closed.expose hr) h
  rw [← hσ.expose hF ha hl, hexpose, hσ.expose hF ha hr]

/-- **A plan that is carried out decides** if the comparisons of parts do. -/
theorem Plan.Means.decides (hF : F.FirstOrder) (hnext : next.Deciding F) {p : Plan} (hp : p.Means l r)
    (hl : l.In F) (hr : r.In F) (hpairs : ∀ q ∈ p.pairs, q.1.In F ∧ q.2.In F) {level : Nat} {s' : Store}
    (hs : s.arena.Ready F) (hfree : ∀ v, l = .var v ∨ r = .var v → s.arena.binding? v.id = none)
    (h : p.run next level s = some (ok, s')) :
    Decides F (fun σ => l.subst σ = r.subst σ) s.arena ok s'.arena := by
  cases p with
  | decide verdict =>
    cases h
    exact .of_iff fun σ _ => hp σ
  | bind v t =>
    injection h with h
    rcases hp with ⟨rfl, rfl⟩ | ⟨rfl, rfl⟩
    · have hbind := bindTo_decides hF hs (in_var.mp hr) hl (hfree v (Or.inr rfl))
      rw [h] at hbind
      exact hbind.congr fun σ _ => eq_comm
    · have hbind := bindTo_decides hF hs (in_var.mp hl) hr (hfree v (Or.inl rfl))
      rw [h] at hbind
      exact hbind
  | all pairs verdict =>
    obtain ⟨rfl, hmeans⟩ := hp
    exact (compareAll_decides hF hnext h hpairs hs).congr fun σ _ => (hmeans σ).symm
  | any pair alternatives => exact hp.elim

/-- **One step decides** if the comparisons of parts do. -/
theorem compareStep_deciding (hF : F.FirstOrder) (hnext : next.Deciding F) : (compareStep defs next).Deciding F := by
  intro l r level s ok s' h
  have hd : defs.In F := fun hp => absurd hp hF.placeholders
  refine ⟨compareStep_confining hd hnext.confining _ _ _ _ _ _ h, fun hl hr hs => ?_⟩
  have hl' := hs.closed.follow hl
  have hr' := hs.closed.follow hr
  -- Up to solutions, the topmost forms are as good as the types themselves.
  have hfollow : ∀ σ, s.arena.Solves F σ → ((s.arena.follow l).subst σ = (s.arena.follow r).subst σ ↔
      l.subst σ = r.subst σ) := by
    intro σ hσ
    rw [hσ.follow hF hs hl, hσ.follow hF hs hr]
  rcases compareStep_cases h with ⟨heq, rfl, hsame⟩ | ⟨_, before, after, hbefore, hafter, hrun⟩
  · rw [hsame]
    refine Decides.congr (.of_iff fun σ hσ => ?_) hfollow
    exact iff_of_true (hσ.of_equivalent hF hs hl' hr' heq) rfl
  · have hfree : ∀ v, s.arena.follow l = .var v ∨ s.arena.follow r = .var v → s.arena.binding? v.id = none := by
      rintro v (hv | hv)
      · exact unbound_of_follow hs.acyclic hv
      · exact unbound_of_follow hs.acyclic hv
    rw [hafter]
    refine Decides.congr ?_ hfollow
    rw [← hbefore] at hs hl' hr' hfree hrun ⊢
    exact (plan_means hF hl' hr').decides hF hnext hl' hr' (fun p hp => (plan_pairs hp).in hd hl' hr') hs hfree hrun

/-- **Comparisons of first-order types decide** whether the two become equal. -/
theorem compareWithin_deciding (hF : F.FirstOrder) (unbound : Nat) : (compareWithin defs unbound).Deciding F :=
  compareWithin_meets (fun _ => compareStep_deciding hF) unbound

section Unifiers

variable (h : Decides F (fun σ => l.subst σ = r.subst σ) a ok b)
include h

/-- The values afterwards solve the arena before, and make the two types equal. -/
theorem Decides.value (hb : b.Ready F) (hok : ok = true) : a.Solves F b.value ∧ l.subst b.value = r.subst b.value :=
  (h.success hok b.value).mp (solves_value hb.acyclic)

/-- **Sound**: after a success, the types expose to equal types. -/
theorem Decides.sound (hb : b.Ready F) (hok : ok = true) : b.expose l = b.expose r := by
  rw [expose_unfold hb.acyclic, expose_unfold hb.acyclic, (h.value hb hok).2]

/-- After a success, the values are a unifier of what the types exposed to before. -/
theorem Decides.unifier (hF : F.FirstOrder) (ha : a.Ready F) (hb : b.Ready F) (hl : l.In F) (hr : r.In F)
    (hok : ok = true) : (a.expose l).subst b.value = (a.expose r).subst b.value := by
  obtain ⟨hsolves, heq⟩ := h.value hb hok
  rw [hsolves.expose hF ha hl, hsolves.expose hF ha hr, heq]

/-- **Complete**: if there is a unifier, the comparison succeeds. -/
theorem Decides.complete (hF : F.FirstOrder) (ha : a.Ready F) (hl : l.In F) (hr : r.In F)
    (hσ : (a.expose l).subst σ = (a.expose r).subst σ) : ok = true := by
  rw [← subst_extend hF ha σ hl, ← subst_extend hF ha σ hr] at hσ
  by_contra hok
  exact h.failure (Bool.eq_false_iff.mpr hok) _ (solves_extend hF ha σ) hσ

/-- **Most general**: every unifier solves the arena afterwards, so it is what the variables stand for now,
    followed by itself. -/
theorem Decides.general (hF : F.FirstOrder) (ha : a.Ready F) (hb : b.Ready F) (hl : l.In F) (hr : r.In F)
    (hok : ok = true) (hσ : (a.expose l).subst σ = (a.expose r).subst σ) (hv : F.vars v)
    (hfree : a.binding? v.id = none) : σ v = (b.expose (.var v)).subst (a.extend σ) := by
  rw [← subst_extend hF ha σ hl, ← subst_extend hF ha σ hr] at hσ
  have hsolves := (h.success hok _).mpr ⟨solves_extend hF ha σ, hσ⟩
  rw [hsolves.expose hF hb (in_var.mpr hv), subst, extend_unbound hfree]

end Unifiers

/-- **Unification decides** whether the two types become equal. -/
theorem unify_decides (hF : F.FirstOrder) (hl : l.In F) (hr : r.In F) (hs : s.arena.Ready F) :
    (s.unify defs l r).2.arena.Ready F ∧
      Decides F (fun σ => l.subst σ = r.subst σ) s.arena (decide ((s.unify defs l r).1 = .unified))
        (s.unify defs l r).2.arena := by
  have hends : (s.unify defs l r).1 ≠ .endless :=
    unify_ends hF.coherent hF.placeholders hl hr hs.closed hs.acyclic
  unfold Store.unify at hends ⊢
  split
  · rename_i after hrun
    obtain ⟨⟨hbinds, hconf⟩, hdecides⟩ := compareWithin_deciding hF _ _ _ _ _ _ _ hrun
    exact ⟨hs.of_confined hF hbinds (hconf hl hr hs.closed), hdecides hl hr hs⟩
  · rename_i after hrun
    obtain ⟨⟨hbinds, _⟩, hdecides⟩ := compareWithin_deciding hF _ _ _ _ _ _ _ hrun
    have hback : (after.rollback s.arena.snapshot).arena = s.arena := hbinds.rollback
    rw [hback]
    exact ⟨hs, nofun, fun _ => (hdecides hl hr hs).failure rfl⟩
  · rename_i hrun
    rw [hrun] at hends
    exact absurd rfl hends

end Deciding

/-! ## First-order unification -/

/-- Only simple types, functions, records and variables occur in the type. -/
def Ty.FirstOrder (t : Ty) : Prop :=
  ∀ u ∈ t.subterms, (match u with | .algebraic .. | .recursive .. | .union _ => false | _ => true) = true

instance (t : Ty) : Decidable t.FirstOrder :=
  inferInstanceAs (Decidable (∀ u ∈ t.subterms, _ = true))

namespace Arena

/-- The owned variables, with simple types, functions and records. -/
def firstOrder (a : Arena) : Fragment := ⟨fun v => a.name? v.id = some v.name, False, False, False, True⟩

theorem firstOrder_firstOrder (a : Arena) : a.firstOrder.FirstOrder := by
  refine ⟨?_, not_false, not_false⟩
  rintro ⟨i, n⟩ ⟨j, m⟩ hv hw rfl
  have hname : some n = some m := Eq.trans (Eq.symm hv) hw
  injection hname with hname
  rw [hname]

theorem in_firstOrder {a : Arena} (howned : a.Owns t) (ht : t.FirstOrder) : t.In a.firstOrder := by
  intro u hu
  have hplain := ht u hu
  cases u with
  | var v => exact howned v (var_mem_subterms.mp hu)
  | algebraic n as os => cases hplain
  | recursive n as => cases hplain
  | union ms => cases hplain
  | _ => trivial

end Arena

/-- **First-order unification is correct.** Where the bindings and the two types are owned and first-order,
    unification ends. It succeeds exactly if some substitution makes the exposed types equal. If it
    succeeds, then exposing the types afterwards gives equal types, and what it bound is most general:
    each substitution that makes the exposed types equal is what the variables now stand for, followed by a
    substitution. -/
theorem firstOrder_unification (c : Context) (l r : Ty) (hwf : c.store.arena.WellFormed)
    (hbindings : ∀ id t, c.store.arena.binding? id = some t → t.FirstOrder)
    (hlo : c.store.arena.Owns l) (hro : c.store.arena.Owns r) (hl : l.FirstOrder) (hr : r.FirstOrder) :
    (c.unify l r).1 ≠ .endless ∧
    ((c.unify l r).1 = .unified ↔ ∃ σ, (c.expose l).subst σ = (c.expose r).subst σ) ∧
    ((c.unify l r).1 = .unified →
      (c.unify l r).2.expose l = (c.unify l r).2.expose r ∧
      ∀ σ, (c.expose l).subst σ = (c.expose r).subst σ → ∃ τ, ∀ v : TyVar,
        c.store.arena.name? v.id = some v.name → c.store.arena.binding? v.id = none →
          σ v = ((c.unify l r).2.expose (.var v)).subst τ) := by
  have hF := c.store.arena.firstOrder_firstOrder
  have hs : c.store.arena.Ready c.store.arena.firstOrder :=
    ⟨fun v t _ ht => Arena.in_firstOrder (hwf.owned v.id t ht) (hbindings v.id t ht), hwf.acyclic,
      fun v hv => Arena.lt_size_of_name? hv⟩
  have hlF := Arena.in_firstOrder hlo hl
  have hrF := Arena.in_firstOrder hro hr
  obtain ⟨hs', hdecides⟩ : (c.unify l r).2.store.arena.Ready c.store.arena.firstOrder ∧
      Decides c.store.arena.firstOrder (fun σ => l.subst σ = r.subst σ) c.store.arena
        (decide ((c.unify l r).1 = .unified)) (c.unify l r).2.store.arena :=
    unify_decides hF hlF hrF hs
  refine ⟨unify_ends hF.coherent hF.placeholders hlF hrF hs.closed hs.acyclic, ⟨fun h => ?_, ?_⟩,
    fun h => ⟨?_, fun σ hσ => ?_⟩⟩
  · exact ⟨_, hdecides.unifier hF hs hs' hlF hrF (decide_eq_true h)⟩
  · rintro ⟨σ, hσ⟩
    exact of_decide_eq_true (hdecides.complete hF hs hlF hrF hσ)
  · exact hdecides.sound hs' (decide_eq_true h)
  · exact ⟨c.store.arena.extend σ, fun v hv hfree =>
      hdecides.general hF hs hs' hlF hrF (decide_eq_true h) hσ hv hfree⟩

/-- A variable that is already bound occurs on the left; the second field is compared under the binding that
    the first one made. -/
theorem firstOrder_unification_records :
    let c := ((Context.new "main" false).fresh.2.fresh.2.fresh.2.unify (.var ⟨4, "t4"⟩)
      (.func (.var ⟨3, "t3"⟩) .integer)).2
    let l := Ty.record "Pair" [] [("a", .var ⟨2, "t2"⟩), ("b", .var ⟨4, "t4"⟩)]
    let r := Ty.record "Pair" [] [("a", .func (.var ⟨3, "t3"⟩) (.var ⟨3, "t3"⟩)), ("b", .var ⟨2, "t2"⟩)]
    (c.unify l r).1 = .unified ∧ (c.unify l r).2.expose l = (c.unify l r).2.expose r ∧
      (c.unify l r).2.expose (.var ⟨2, "t2"⟩) = .func .integer .integer ∧
      ∃ σ, (c.expose l).subst σ = (c.expose r).subst σ := by
  intro c l r
  have hreach : c.Reachable :=
    .unify (.fresh (.fresh (.fresh (.new _ _)))) (by decide +kernel) (by decide +kernel)
  have hplain : ∀ id < 5, ∀ t ∈ c.store.arena.binding? id, t.FirstOrder := by decide +kernel
  have hbindings : ∀ id t, c.store.arena.binding? id = some t → t.FirstOrder :=
    fun id t ht => hplain id (Arena.lt_size_of_binding? ht) t ht
  obtain ⟨_, hiff, hunified⟩ := firstOrder_unification c l r hreach.wellFormed.arena hbindings
    (by decide +kernel) (by decide +kernel) (by decide +kernel) (by decide +kernel)
  have hok : (c.unify l r).1 = .unified := by decide +kernel
  exact ⟨hok, (hunified hok).1, by decide +kernel, hiff.mp hok⟩

/-- **A variable under a wrong name** unifies with itself, but the two sides remain different. -/
theorem misnamed_variable_unifies :
    let c := (Context.new "main" false).fresh.2
    let l := Ty.var ⟨2, "x"⟩
    let r := Ty.var ⟨2, "t2"⟩
    c.store.arena.WellFormed ∧ l.FirstOrder ∧ r.FirstOrder ∧ (c.unify l r).1 = .unified ∧
      (c.unify l r).2.expose l ≠ (c.unify l r).2.expose r := by
  have hreach : (Context.new "main" false).fresh.2.Reachable := .fresh (.new _ _)
  exact ⟨hreach.wellFormed.arena, by decide +kernel, by decide +kernel, by decide +kernel,
    by decide +kernel⟩

end UnionTyping
