import UnionTyping.Proofs.Search

/-!
# `Proofs.Confined` — comparisons do not leave a fragment, and make no cycles

If the types compared, the registered definitions and the bindings of a fragment's variables all lie in the
fragment, then a comparison binds only variables of the fragment, and binds them to types of it
(`compareWithin_confining`). If moreover every number has one name in the fragment, no cycle arises.

There are two places where a variable is bound. The first looks for the variable in the type before it
binds it. The second, `accrete`, does not look. It is safe for another reason: the values come from
attempts that were undone. Each of them was exposed under the bindings of its attempt, so a variable in it
is unbound there, while the variables that are to be bound now are bound in every attempt. Hence no value
mentions any of them (`accrete_confined`).
-/

namespace UnionTyping

open List Arena

/-! ## Closed arenas -/

variable {t : Ty}

/-- Every number has one name. -/
def Fragment.Coherent (F : Fragment) : Prop :=
  ∀ v w, F.vars v → F.vars w → v.id = w.id → v = w

namespace Arena

/-- The variables of the fragment are bound to types of the fragment. -/
def Closed (F : Fragment) (a : Arena) : Prop :=
  ∀ v t, F.vars v → a.binding? v.id = some t → t.In F

section Closed

variable {F : Fragment} {a : Arena}

theorem Closed.exposeWithin (ha : a.Closed F) (n : Nat) (ht : t.In F) : (a.exposeWithin n t).In F := by
  induction n generalizing t with
  | zero => exact ht.subst fun v hv => Ty.in_var.mpr (ht.vars hv)
  | succ n ih =>
    refine ht.subst fun v hv => ?_
    cases hu : a.binding? v.id with
    | none => exact Ty.in_var.mpr (ht.vars hv)
    | some u => exact ih (ha v u (ht.vars hv) hu)

/-- Exposing does not leave the fragment. -/
theorem Closed.expose (ha : a.Closed F) (ht : t.In F) : (a.expose t).In F :=
  ha.exposeWithin _ ht

theorem Closed.followWithin (ha : a.Closed F) (n : Nat) (ht : t.In F) : (a.followWithin n t).In F := by
  induction n generalizing t with
  | zero => exact ht
  | succ n ih =>
    cases t with
    | var v =>
      simp only [followWithin]
      cases hu : a.binding? v.id with
      | none => exact ht
      | some u => exact ih (ha v u (Ty.in_var.mp ht) hu)
    | _ => exact ht

theorem Closed.follow (ha : a.Closed F) (ht : t.In F) : (a.follow t).In F :=
  ha.followWithin _ ht

end Closed

/-! ## Confined changes -/

/-- **The fragment is not left** on the way from one arena to another: only variables of the fragment are
    bound, their bindings lie in the fragment, and if every number has one name there, no cycle arises. -/
structure Confined (F : Fragment) (a b : Arena) : Prop where
  closed : b.Closed F
  inside : ∀ id, a.binding? id = none → (b.binding? id).isSome → ∃ v, F.vars v ∧ v.id = id
  acyclic : F.Coherent → a.Acyclic → b.Acyclic

namespace Confined

variable {F : Fragment} {a b : Arena}

theorem refl (ha : a.Closed F) : Confined F a a :=
  ⟨ha, fun _ hnone hsome => absurd hsome (by simp [hnone]), fun _ h => h⟩

theorem trans {c : Arena} (hab : Confined F a b) (hbc : Confined F b c) : Confined F a c := by
  refine ⟨hbc.closed, fun id hnone hsome => ?_, fun hF ha => hbc.acyclic hF (hab.acyclic hF ha)⟩
  cases hb : b.binding? id with
  | none => exact hbc.inside id hb hsome
  | some t => exact hab.inside id hnone (by rw [hb]; rfl)

/-- One binding, of a variable that its binding does not reach. -/
theorem of_bind (ha : a.Closed F) {v : TyVar} (hv : F.vars v) (ht : t.In F) (hb : a.bind? v.id t = .ok b)
    (hreach : F.Coherent → a.Acyclic → ¬a.Reaches t v.id) : Confined F a b := by
  refine ⟨fun w u hw hu => ?_, fun id hnone hsome => ?_, fun hF hac => hac.bind hb (hreach hF hac)⟩
  · rw [binding?_bind hb] at hu
    split at hu
    · injection hu with hu
      exact hu ▸ ht
    · exact ha w u hw hu
  · rw [binding?_bind hb] at hsome
    split at hsome
    · rename_i hid
      exact ⟨v, hv, hid.symm⟩
    · rw [hnone] at hsome
      cases hsome

end Confined
end Arena

open Arena (Confined)

/-! ## Parts stay in the fragment -/

section Parts

variable {F : Fragment}

/-- The alternatives of a type of the fragment; where there are any, the fragment allows for choices. -/
theorem Ty.In.choice {u : Ty} (h : t.In F) (hu : u ∈ t.choices) : F.choices ∧ u.In F := by
  cases t with
  | union ms => exact ⟨h.admits.1, h.child hu⟩
  | algebraic n as os =>
    obtain ⟨o, ho, rfl⟩ := mem_map.mp hu
    exact ⟨h.admits.1, Ty.In.unroll h (h.child (mem_append_right _ ho))⟩
  | _ => cases hu

/-- **What is compared next lies in the fragment.** -/
theorem Part.in {defs : Definitions} {l r : Ty} (hd : defs.In F) (hl : l.In F) (hr : r.In F) {p : Ty × Ty}
    (h : Part defs l r p) :
    p.1.In F ∧ p.2.In F := by
  cases h with
  | children hx hy => exact ⟨hl.child hx, hr.child hy⟩
  | crossed hx hy => exact ⟨hr.child hx, hl.child hy⟩
  | unfoldLeft h => exact ⟨hd.expand? hl h, hr⟩
  | unfoldRight h => exact ⟨hl, hd.expand? hr h⟩
  | chooseLeft h => exact ⟨(hl.choice h).2, hr⟩
  | chooseRight h => exact ⟨hl, (hr.choice h).2⟩

end Parts

/-! ## Comparisons stay in the fragment -/

section Confinement

variable {s : Store} {level : Nat} {F : Fragment}

/-- **A checked binding is confined.** Neither is the variable the type nor does it occur in it. -/
theorem bindTo_confined {v : TyVar} (ha : s.arena.Closed F) (hv : F.vars v) (ht : t.In F)
    (hne : s.arena.binding? v.id = none → s.arena.expose t ≠ .var v) :
    Confined F s.arena (bindTo v t s).2.arena := by
  unfold bindTo
  split
  · exact .refl ha
  · rename_i hoccurs
    rcases s.bind_cases v.id t with ⟨b, hb, _, hb'⟩ | ⟨_, _, hsame⟩
    · rw [hb']
      have hfree := unbound_of_bind hb
      refine .of_bind ha hv ht hb fun hF hac hreach => hoccurs ?_
      -- The variable shows in the exposed type, and since it is not all of it, in a child.
      obtain ⟨w, hw, hid⟩ := mem_expose_of_reaches hac hreach hfree
      have hwv : w = v := hF w v ((ha.expose ht).vars hw) hv hid
      subst hwv
      rcases Ty.mem_vars_iff.mp hw with h | ⟨c, hc, hw⟩
      · exact absurd h (hne hfree)
      · refine any_eq_true.mpr ⟨c, hc, ?_⟩
        exact contains_iff_mem.mpr (Ty.var_mem_subterms.mpr hw)
    · rw [hsame]
      exact .refl ha

/-- **The comparison stays in the fragment**: given types and bindings of it, it only binds variables, and
    within the fragment. -/
abbrev Comparison.Confining (F : Fragment) (compare : Comparison) : Prop :=
  compare.Meets fun l r s _ s' => s.arena.Binds s'.arena ∧
    (l.In F → r.In F → s.arena.Closed F → Confined F s.arena s'.arena)

theorem Comparison.Confining.binding {compare : Comparison} (h : compare.Confining F) : compare.Binding :=
  fun l r level s ok s' hrun => (h l r level s ok s' hrun).1

theorem compareAll_confined {next : Comparison} (hnext : next.Confining F) {verdict : Bool}
    {pairs : List (Ty × Ty)} {s' : Store} {ok : Bool}
    (h : compareAll next level verdict pairs s = some (ok, s')) (hpairs : ∀ p ∈ pairs, p.1.In F ∧ p.2.In F)
    (ha : s.arena.Closed F) : Confined F s.arena s'.arena := by
  refine compareAll_relates (R := fun s s' => s.arena.Closed F → Confined F s.arena s'.arena) (fun _ => .refl)
    (fun h h' ha => (h ha).trans (h' (h ha).closed)) (fun p hp s ok s' hrun => ?_) h ha
  exact (hnext p.1 p.2 level s ok s' hrun).2 (hpairs p hp).1 (hpairs p hp).2

/-- **Accretion is confined**, although it does not look for variables in what they are bound to. -/
theorem accrete_confined {attempt : Attempt} {alternatives : List Ty} {a : Arena}
    (hbinds : ∀ t s ok s', attempt t s = some (ok, s') → s.arena.Binds s'.arena)
    (hattempt : ∀ t ∈ alternatives, ∀ s s', s.arena = a → attempt t s = some (true, s') → Confined F a s'.arena)
    (hc : F.choices) (ha : a.Closed F) {first : Success} {rest : List Success}
    (hfrom : ∀ x ∈ first :: rest, x.From attempt alternatives a) {count : Nat} (hs : s.arena = a) :
    Confined F a (accrete level count (commonBindings first rest) s).arena := by
  -- What the attempts bound, and to what.
  have hbound : ∀ x ∈ first :: rest, ∃ b, a.Binds b ∧ Confined F a b ∧
      ∀ id u, (id, u) ∈ x.bindings → a.binding? id = none ∧ ∃ u', b.binding? id = some u' ∧ u = b.expose u' := by
    intro x hx
    obtain ⟨hmem, before, after, rfl, hrun, hbindings⟩ := hfrom x hx
    have hb := hbinds _ _ _ _ hrun
    refine ⟨after.arena, hb, hattempt _ hmem _ _ rfl hrun, fun id u hu => ?_⟩
    rw [hbindings] at hu
    exact hb.mem_bindingsSince.mp hu
  -- Besides what was bound before, only common variables are.
  refine And.left (accrete_induction (fun x => Confined F a x ∧ a.Binds x ∧
    ∀ id, (∀ t, (id, t) ∉ commonBindings first rest) → x.binding? id = a.binding? id)
    (by rw [hs]; exact ⟨.refl ha, .refl a, fun _ _ => rfl⟩) ?_)
  rintro ⟨id, t⟩ he x y ⟨hconf, hgrow, hold⟩ hb
  obtain ⟨hall, values, hunion, hvalues⟩ := mem_commonBindings he
  have htF : t.In F := by
    refine Ty.In.of_union? hc (fun u hu => ?_) hunion
    obtain ⟨z, hz, hmem⟩ := hvalues u hu
    obtain ⟨b, _, hbconf, hbnd⟩ := hbound z hz
    obtain ⟨hnone, u', hu', rfl⟩ := hbnd id u hmem
    obtain ⟨v, hv, rfl⟩ := hbconf.inside id hnone (by rw [hu']; rfl)
    exact hbconf.closed.expose (hbconf.closed v u' hv hu')
  obtain ⟨v, hv, rfl⟩ : ∃ v, F.vars v ∧ v.id = id := by
    obtain ⟨u, hu⟩ := hall first mem_cons_self
    obtain ⟨b, _, hbconf, hbnd⟩ := hbound first mem_cons_self
    obtain ⟨hnone, u', hu', _⟩ := hbnd id u hu
    exact hbconf.inside id hnone (by rw [hu']; rfl)
  refine ⟨hconf.trans (.of_bind hconf.closed hv htF hb fun hF hx hreach => ?_),
    hgrow.trans (.of_bind hb), fun i hi => ?_⟩
  · -- A variable of the new binding is unbound in the attempt that it comes from.
    obtain ⟨w, hw, hpath⟩ := hreach
    obtain ⟨u, hu, hwu⟩ := (Ty.mem_vars_union? hunion).mp hw
    obtain ⟨z, hz, hmem⟩ := hvalues u hu
    obtain ⟨b, hab, hbconf, hbnd⟩ := hbound z hz
    obtain ⟨_, u', _, rfl⟩ := hbnd v.id u hmem
    have hfree : b.binding? w.id = none :=
      unbound_of_mem_expose (hbconf.acyclic hF (.of_extends hgrow.grows hx)) hwu
    have hcommon : ∀ t', (w.id, t') ∉ commonBindings first rest := by
      intro t' ht'
      obtain ⟨u₂, hu₂⟩ := (mem_commonBindings ht').1 z hz
      obtain ⟨_, u₃, hu₃, _⟩ := hbnd w.id u₂ hu₂
      rw [hfree] at hu₃
      cases hu₃
    have hleaf : x.binding? w.id = none := by rw [hold _ hcommon, hab.grows.unbound hfree]
    rcases Relation.ReflTransGen.cases_head hpath with hid | ⟨j, ⟨u₂, hu₂, _⟩, _⟩
    · exact hcommon t (hid ▸ he)
    · rw [hleaf] at hu₂
      cases hu₂
  · have hne : i ≠ v.id := fun h => hi t (h ▸ he)
    rw [binding?_bind hb, if_neg hne, hold i hi]

theorem compareAlternatives_confined {attempt : Attempt} {alternatives : List Ty} {s' : Store} {ok : Bool}
    (hbinds : ∀ t s ok s', attempt t s = some (ok, s') → s.arena.Binds s'.arena)
    (hattempt : ∀ t ∈ alternatives, F.choices ∧ ∀ s s' ok, attempt t s = some (ok, s') → s.arena.Closed F →
      Confined F s.arena s'.arena)
    (h : compareAlternatives attempt level alternatives s = some (ok, s')) (ha : s.arena.Closed F) :
    Confined F s.arena s'.arena := by
  rcases compareAlternatives_cases hbinds h with
    hsame | ⟨t, ht, before, hbefore, hrun⟩ | ⟨_, first, rest, before, count, hbefore, hfrom, rfl⟩
  · rw [hsame]
    exact .refl ha
  · rw [← hbefore] at ha ⊢
    exact (hattempt t ht).2 before s' ok hrun ha
  · have hc := (hattempt _ (hfrom first mem_cons_self).1).1
    refine accrete_confined hbinds (fun t ht s₁ s₂ hs₁ hrun => ?_) hc ha hfrom hbefore
    rw [← hs₁] at ha ⊢
    exact (hattempt t ht).2 s₁ s₂ true hrun ha

/-- **One step stays in the fragment** if the steps below it do: its plan is about types of the
    fragment. -/
theorem compareStep_confining {defs : Definitions} (hd : defs.In F) {next : Comparison}
    (hnext : next.Confining F) : (compareStep defs next).Confining F := by
  intro l r level s ok s' h
  refine ⟨compareStep_binds hnext.binding _ _ _ _ _ _ h, fun hl hr ha => ?_⟩
  rcases compareStep_cases h with ⟨_, _, hsame⟩ | ⟨hneq, before, after, hbefore, hafter, hrun⟩
  · rw [hsame]
    exact .refl ha
  have hl' := ha.follow hl
  have hr' := ha.follow hr
  rw [← hbefore] at ha hneq hrun hl' hr' ⊢
  rw [hafter]
  have hpairs : ∀ p ∈ (plan defs before.arena (before.arena.follow l) (before.arena.follow r)).pairs,
      p.1.In F ∧ p.2.In F := fun p hp => (plan_pairs hp).in hd hl' hr'
  cases hplan : plan defs before.arena (before.arena.follow l) (before.arena.follow r) with
  | decide verdict =>
    rw [hplan] at hrun
    cases hrun
    exact .refl ha
  | bind v t =>
    rw [hplan] at hrun
    injection hrun with hrun
    -- The two are not equivalent, so the type is not the variable in disguise.
    have hne : before.arena.binding? v.id = none → before.arena.expose t ≠ .var v := by
      intro hfree ht
      have hv := expose_unbound hfree
      rcases plan_eq_bind hplan with ⟨hlt, hrv⟩ | ⟨hlv, hrt⟩
      · rw [hlt, hrv, equivalent, ht, hv] at hneq
        simp [Ty.equiv] at hneq
      · rw [hlv, hrt, equivalent, ht, hv] at hneq
        simp [Ty.equiv] at hneq
    have hconf : Confined F before.arena (bindTo v t before).2.arena := by
      rcases plan_eq_bind hplan with ⟨rfl, hv⟩ | ⟨hv, rfl⟩
      · exact bindTo_confined ha (Ty.in_var.mp (hv ▸ hr')) hl' hne
      · exact bindTo_confined ha (Ty.in_var.mp (hv ▸ hl')) hr' hne
    rw [hrun] at hconf
    exact hconf
  | all pairs verdict =>
    rw [hplan] at hrun hpairs
    exact compareAll_confined hnext hrun hpairs ha
  | any pair alternatives =>
    rw [hplan] at hrun hpairs
    refine compareAlternatives_confined (fun t s ok s' h => hnext.binding _ _ _ s ok s' h)
      (fun t ht => ⟨?_, fun s s' ok hrun hs => ?_⟩) hrun ha
    · rcases plan_eq_any hplan with rfl | rfl
      · exact (hl'.choice ht).1
      · exact (hr'.choice ht).1
    · have hpair := hpairs (pair t) (mem_map_of_mem ht)
      exact (hnext _ _ _ s ok s' hrun).2 hpair.1 hpair.2 hs

/-- **Comparisons stay in a fragment.** -/
theorem compareWithin_confining {defs : Definitions} (hd : defs.In F) (unbound : Nat) :
    (compareWithin defs unbound).Confining F :=
  compareWithin_meets (fun _ => compareStep_confining hd) unbound

end Confinement

end UnionTyping
