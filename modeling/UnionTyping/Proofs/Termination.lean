import UnionTyping.Proofs.Confined

/-!
# `Proofs.Termination` — comparisons without placeholders come to an end

A comparison is given up when its depth is used up. The depth granted is more than the weight of the two
types, seen through bindings. Where there are no placeholders, the pairs that a step compares next are
lighter than the pair at hand (`Part.lighter`), as long as no variable is bound in between; and each time
one is bound, a depth is granted afresh, which happens at most as often as there are unbound variables.
Hence no comparison is given up (`unify_ends`), whatever definitions are registered.
-/

namespace UnionTyping

open List Arena

/-! ## Weight -/

variable {l r t : Ty} {defs : Definitions} {F : Fragment}

namespace Ty

variable {f : TyVar → Nat}

theorem weighFields_eq (fs : List (String × Ty)) : weighFields f fs = weighList f (fs.map Prod.snd) := by
  induction fs with
  | nil => rfl
  | cons e fs ih => rw [weighFields, ih, map_cons, weighList]

theorem weighList_append (ts us : List Ty) : weighList f (ts ++ us) = weighList f ts + weighList f us := by
  induction ts with
  | nil => rw [nil_append, weighList, Nat.zero_add]
  | cons t ts ih => rw [cons_append, weighList, weighList, ih, Nat.add_assoc]

theorem weigh_le_weighList {ts : List Ty} (h : t ∈ ts) : weigh f t ≤ weighList f ts := by
  induction ts with
  | nil => cases h
  | cons u us ih =>
    rw [weighList]
    rcases mem_cons.mp h with rfl | h
    · exact Nat.le_add_right _ _
    · exact Nat.le_trans (ih h) (Nat.le_add_left _ _)

/-- Apart from variables, a type weighs one more than its children. -/
theorem weigh_eq_children (h : ∀ v, t ≠ .var v) : weigh f t = 1 + weighList f t.children := by
  cases t with
  | var v => exact absurd rfl (h v)
  | func a r => simp only [weigh, children, weighList]; omega
  | record n as fs => simp only [weigh, children, weighList_append, weighFields_eq]; omega
  | algebraic n as os => simp only [weigh, children, weighList_append]; omega
  | _ => rfl

theorem weigh_child_lt {c : Ty} (h : c ∈ t.children) : weigh f c < weigh f t := by
  have hne : ∀ v, t ≠ .var v := by
    rintro v rfl
    cases h
  rw [weigh_eq_children hne]
  have hle : weigh f c ≤ weighList f t.children := weigh_le_weighList h
  omega

/-- Only the weights of a type's own variables matter. -/
theorem weigh_congr {g : TyVar → Nat} (h : ∀ v ∈ t.vars, f v = g v) : weigh f t = weigh g t := by
  have hlist : ∀ ts : List Ty, (∀ t ∈ ts, weigh f t = weigh g t) → weighList f ts = weighList g ts := by
    intro ts hts
    induction ts with
    | nil => rfl
    | cons t ts ih =>
      obtain ⟨ht, hts⟩ := forall_mem_cons.mp hts
      rw [weighList, weighList, ht, ih hts]
  induction t using Ty.childwise with
  | step t ih =>
    by_cases hvar : ∃ v, t = .var v
    · obtain ⟨v, rfl⟩ := hvar
      exact h v (by simp)
    · have hne : ∀ v, t ≠ .var v := fun v hv => hvar ⟨v, hv⟩
      rw [weigh_eq_children hne, weigh_eq_children hne]
      refine congrArg (1 + ·) (hlist _ fun c hc => ih c hc fun v hv => h v ?_)
      exact mem_vars_of_child hc hv

/-! ### Unions do not get heavier -/

theorem weighList_filter_le (p : Ty → Bool) (ts : List Ty) : weighList f (ts.filter p) ≤ weighList f ts := by
  induction ts with
  | nil => exact Nat.le_refl _
  | cons t ts ih =>
    rw [filter_cons]
    split
    · rw [weighList, weighList]
      omega
    · rw [weighList]
      omega

theorem weighList_eraseDups_le (ts : List Ty) : weighList f ts.eraseDups ≤ weighList f ts := by
  generalize hn : ts.length = n
  induction n using Nat.strongRecOn generalizing ts with
  | ind n ih =>
    cases ts with
    | nil => exact Nat.le_refl _
    | cons t ts =>
      rw [eraseDups_cons, weighList, weighList]
      have hlen : (ts.filter fun b => !b == t).length < n := by
        have := length_filter_le (fun b => !b == t) ts
        rw [← hn, length_cons]
        omega
      have hrest := ih _ hlen _ rfl
      have hfilter := weighList_filter_le (f := f) (fun b => !b == t) ts
      omega

theorem weighList_alternatives_le (t : Ty) : weighList f t.alternatives ≤ weigh f t := by
  cases t with
  | union ms => exact Nat.le_add_left _ _
  | _ => exact Nat.le_of_eq (Nat.add_zero _)

theorem weighList_flatMap_alternatives_le (ts : List Ty) : weighList f (ts.flatMap alternatives) ≤ weighList f ts := by
  induction ts with
  | nil => exact Nat.le_refl _
  | cons t ts ih =>
    rw [flatMap_cons, weighList_append, weighList]
    have := weighList_alternatives_le (f := f) t
    omega

/-- A union in normal form is no heavier than the members it was made from. -/
theorem weigh_join_le (ms : List Ty) : weigh f (join ms) ≤ 1 + weighList f ms := by
  have hflat : weighList f (ms.flatMap alternatives).eraseDups ≤ weighList f ms :=
    Nat.le_trans (weighList_eraseDups_le _) (weighList_flatMap_alternatives_le ms)
  unfold join
  cases h : union? ms with
  | none => exact Nat.le_refl _
  | some t =>
    rcases union?_cases h with he | ⟨u, us, rfl, he⟩
    · have hle : weigh f t ≤ weighList f (ms.flatMap alternatives).eraseDups :=
        weigh_le_weighList (by simp [he])
      simp only [Option.getD_some]
      omega
    · rw [he] at hflat
      simp only [Option.getD_some, weigh]
      omega

theorem weighList_map_le {g : Ty → Ty} {ts : List Ty} (h : ∀ t ∈ ts, weigh f (g t) ≤ weigh f t) :
    weighList f (ts.map g) ≤ weighList f ts := by
  induction ts with
  | nil => exact Nat.le_refl _
  | cons t ts ih =>
    obtain ⟨ht, hts⟩ := forall_mem_cons.mp h
    have := ih hts
    simp only [map_cons, weighList]
    omega

/-- Where there are no placeholders, unrolling does nothing but bring unions into normal form. -/
theorem weigh_unrollNamed_le (hF : ¬F.placeholders) (name : String) (owner : Ty) (ht : t.In F) :
    weigh f (unrollNamed name owner t) ≤ weigh f t := by
  induction t using unrolling name with
  | var v => exact Nat.le_refl _
  | union ms ih =>
    have hmembers := weighList_map_le fun t hm => ih t hm (ht.child hm)
    have hjoin := weigh_join_le (f := f) (ms.map (unrollNamed name owner))
    rw [unrollNamed_union, weigh]
    omega
  | placeholder as => exact absurd ht.admits hF
  | shadow t hshadow => exact Nat.le_of_eq (by rw [hshadow.unrollNamed])
  | other t hrigid hname ih =>
    rw [hrigid.unrollNamed hname, weigh_eq_children (hrigid.mapChildren _).ne_var, weigh_eq_children hrigid.ne_var,
      children_mapChildren]
    exact Nat.add_le_add_left (weighList_map_le fun c hc => ih c hc (ht.child hc)) 1

/-- An alternative of a type is lighter than the type. -/
theorem weigh_choice_lt (hF : ¬F.placeholders) {u : Ty} (ht : t.In F) (hu : u ∈ t.choices) : weigh f u < weigh f t := by
  cases t with
  | union ms => exact weigh_child_lt (t := .union ms) hu
  | algebraic n as os =>
    obtain ⟨o, ho, rfl⟩ := mem_map.mp hu
    have hmem : o ∈ (Ty.algebraic n as os).children := mem_append_right _ ho
    exact Nat.lt_of_le_of_lt (weigh_unrollNamed_le hF n _ (ht.child hmem)) (weigh_child_lt hmem)
  | _ => cases hu

end Ty

namespace Arena

variable {a : Arena}

theorem weightWithin_of_within {n m : Nat} (h : a.Within n t) (hnm : n ≤ m) :
    a.weightWithin m t = a.weightWithin n t := by
  refine h.stable (fun m t ht => ?_) (fun m n t ht => ?_) hnm
  · exact Ty.weigh_congr fun v hv => by rw [ht v hv]
  · refine Ty.weigh_congr fun v hv => ?_
    cases hu : a.binding? v.id with
    | none => rfl
    | some u => exact congrArg (1 + ·) (ht v hv u hu)

/-- The weight of a variable: that of its binding and one more. -/
def varWeight (a : Arena) (v : TyVar) : Nat :=
  match a.binding? v.id with
  | some u => 1 + a.weight u
  | none => 1

/-- **The recursion that `weight` stands for.** -/
theorem weight_unfold (ha : a.Acyclic) (t : Ty) : a.weight t = t.weigh a.varWeight :=
  (weightWithin_of_within (ha.within t) (Nat.le_succ _)).symm

theorem varWeight_bound {v : TyVar} (h : a.binding? v.id = some t) : a.varWeight v = 1 + a.weight t := by
  rw [varWeight, h]

/-- The weights of variables are the same in a type and in its parts. -/
theorem weight_eq_weigh (a : Arena) : ∃ f : TyVar → Nat, ∀ t, a.weight t = t.weigh f := by
  unfold weight
  cases a.size with
  | zero => exact ⟨_, fun _ => rfl⟩
  | succ n => exact ⟨_, fun _ => rfl⟩

theorem weight_child_lt {c : Ty} (h : c ∈ t.children) : a.weight c < a.weight t := by
  obtain ⟨f, hf⟩ := a.weight_eq_weigh
  rw [hf, hf]
  exact Ty.weigh_child_lt h

theorem weight_choice_lt (hF : ¬F.placeholders) {u : Ty} (ht : t.In F) (hu : u ∈ t.choices) :
    a.weight u < a.weight t := by
  obtain ⟨f, hf⟩ := a.weight_eq_weigh
  rw [hf, hf]
  exact Ty.weigh_choice_lt hF ht hu

/-- What is found at the top is no heavier. -/
theorem weight_follow_le (ha : a.Acyclic) (t : Ty) : a.weight (a.follow t) ≤ a.weight t := by
  have hvar : ∀ v : TyVar, a.weight (a.follow (.var v)) ≤ a.weight (.var v) := by
    intro v
    induction v using ha.induction with
    | unbound v hv => exact Nat.le_of_eq (by rw [follow_unbound hv])
    | bound v u hu ih =>
      have hweight : a.weight (.var v) = 1 + a.weight u := by
        rw [weight_unfold ha, Ty.weigh, varWeight_bound hu]
      rw [follow_bound ha hu, hweight]
      cases u with
      | var x => exact Nat.le_trans (ih x (by simp)) (Nat.le_add_left _ _)
      | _ =>
        rw [follow_of_ne_var (by simp)]
        exact Nat.le_add_left _ _
  cases t with
  | var v => exact hvar v
  | _ => exact Nat.le_of_eq (by rw [follow_of_ne_var (by simp)])

end Arena

/-- **What is compared next is lighter**, where there are no placeholders. -/
theorem Part.lighter (hF : ¬F.placeholders) (a : Arena) (hl : l.In F) (hr : r.In F) {p : Ty × Ty}
    (h : Part defs l r p) : a.weight p.1 + a.weight p.2 < a.weight l + a.weight r := by
  have hexpand : ∀ {t u : Ty}, t.In F → defs.expand? t ≠ some u := by
    intro t u ht h
    cases t with
    | recursive n as => exact hF ht.admits
    | _ => cases h
  cases h with
  | children hx hy =>
    have hx := weight_child_lt (a := a) hx
    have hy := weight_child_lt (a := a) hy
    simp only []
    omega
  | crossed hx hy =>
    have hx := weight_child_lt (a := a) hx
    have hy := weight_child_lt (a := a) hy
    simp only []
    omega
  | unfoldLeft h => exact absurd h (hexpand hl)
  | unfoldRight h => exact absurd h (hexpand hr)
  | chooseLeft h =>
    have := weight_choice_lt (a := a) hF hl h
    simp only []
    omega
  | chooseRight h =>
    have := weight_choice_lt (a := a) hF hr h
    simp only []
    omega

/-! ## Comparisons end -/

section Ends

variable {s : Store} {level : Nat}

theorem tryAlternatives_ends {attempt : Attempt}
    (hbinds : ∀ t s ok s', attempt t s = some (ok, s') → s.arena.Binds s'.arena) {alternatives : List Ty}
    (h : ∀ t ∈ alternatives, ∀ s' : Store, s'.arena = s.arena → (attempt t s').isSome) :
    (tryAlternatives attempt alternatives s).isSome := by
  induction alternatives generalizing s with
  | nil => rfl
  | cons t rest ih =>
    obtain ⟨ht, hrest⟩ := forall_mem_cons.mp h
    obtain ⟨⟨ok, tried⟩, htried⟩ := Option.isSome_iff_exists.mp (ht s rfl)
    have hback : (tried.rollback s.arena.snapshot).arena = s.arena :=
      (hbinds t s ok tried htried).rollback
    obtain ⟨⟨search, s₂⟩, hsearch⟩ := Option.isSome_iff_exists.mp
      (ih (s := tried.rollback s.arena.snapshot) (by rw [hback]; exact hrest))
    unfold tryAlternatives
    rw [htried]
    simp only [Option.bind_eq_bind, Option.bind_some]
    split
    · rfl
    · rw [hsearch]
      simp only [Option.bind_some]
      split
      · rfl
      · split <;> rfl

theorem compareAlternatives_ends {attempt : Attempt}
    (hbinds : ∀ t s ok s', attempt t s = some (ok, s') → s.arena.Binds s'.arena) {alternatives : List Ty}
    (h : ∀ t ∈ alternatives, ∀ s' : Store, s'.arena = s.arena → (attempt t s').isSome) :
    (compareAlternatives attempt level alternatives s).isSome := by
  obtain ⟨⟨search, s₁⟩, hsearch⟩ := Option.isSome_iff_exists.mp (tryAlternatives_ends hbinds h)
  obtain ⟨harena, hfound⟩ := tryAlternatives_spec hbinds hsearch
  unfold compareAlternatives
  rw [hsearch]
  simp only [Option.bind_eq_bind, Option.bind_some]
  match search, hfound with
  | .settled, _ => rfl
  | .found [], _ => rfl
  | .found [only], hfound => exact h _ (hfound only mem_cons_self).1 s₁ harena
  | .found (first :: second :: rest), _ => rfl

theorem compareAll_ends {next : Comparison} (hnext : next.Confining F) (hF : F.Coherent) {verdict : Bool}
    {pairs : List (Ty × Ty)} (hpairs : ∀ p ∈ pairs, p.1.In F ∧ p.2.In F) (ha : s.arena.Closed F)
    (hac : s.arena.Acyclic)
    (h : ∀ p ∈ pairs, ∀ s' : Store, s.arena.Binds s'.arena → s'.arena.Closed F → s'.arena.Acyclic →
      (next p.1 p.2 level s').isSome) :
    (compareAll next level verdict pairs s).isSome := by
  induction pairs generalizing s with
  | nil => rfl
  | cons p ps ih =>
    obtain ⟨hp, hps⟩ := forall_mem_cons.mp hpairs
    obtain ⟨hfirst, hrest⟩ := forall_mem_cons.mp h
    obtain ⟨⟨ok, s₁⟩, hrun⟩ := Option.isSome_iff_exists.mp (hfirst s (.refl _) ha hac)
    obtain ⟨hbinds, hconf⟩ := hnext _ _ _ _ _ _ hrun
    have hconf := hconf hp.1 hp.2 ha
    unfold compareAll
    rw [hrun]
    simp only [Option.bind_eq_bind, Option.bind_some]
    split
    · exact ih hps hconf.closed (hconf.acyclic hF hac) fun q hq s' hs' =>
        hrest q hq s' (hbinds.trans hs')
    · rfl

/-- **One step ends** if the comparisons of parts do, under whatever is bound by then. -/
theorem compareStep_ends {next : Comparison} (hnext : next.Confining F) (hF : F.Coherent) (hd : defs.In F)
    (hl : l.In F) (hr : r.In F) (ha : s.arena.Closed F) (hac : s.arena.Acyclic)
    (h : ∀ p, Part defs (s.arena.follow l) (s.arena.follow r) p → p.1.In F → p.2.In F → ∀ s' : Store,
      s.arena.Binds s'.arena → s'.arena.Closed F → s'.arena.Acyclic → (next p.1 p.2 (level + 1) s').isSome) :
    (compareStep defs next l r level s).isSome := by
  have hl' := ha.follow hl
  have hr' := ha.follow hr
  unfold compareStep
  simp only []
  split
  · rfl
  · rw [compareCases_eq_run]
    -- The journal is all that differs from the store at the start.
    generalize hs : (s.note .trace fun _ => indent level ++ "unify: " ++ s.shown (s.arena.follow l) ++
      " = " ++ s.shown (s.arena.follow r)) = noted
    have harena : noted.arena = s.arena := by rw [← hs]; rfl
    rw [harena]
    have hpairs : ∀ p ∈ (plan defs s.arena (s.arena.follow l) (s.arena.follow r)).pairs,
        (p.1.In F ∧ p.2.In F) ∧ ∀ s' : Store, noted.arena.Binds s'.arena → s'.arena.Closed F →
          s'.arena.Acyclic → (next p.1 p.2 (level + 1) s').isSome := by
      intro p hp
      have hpart := plan_pairs hp
      have hin := hpart.in hd hl' hr'
      exact ⟨hin, fun s' hb => h p hpart hin.1 hin.2 s' (harena ▸ hb)⟩
    have hrun : ((plan defs s.arena (s.arena.follow l) (s.arena.follow r)).run next level noted).isSome := by
      cases hplan : plan defs s.arena (s.arena.follow l) (s.arena.follow r) with
      | decide verdict => rfl
      | bind v t => rfl
      | all pairs verdict =>
        rw [hplan] at hpairs
        exact compareAll_ends hnext hF (fun p hp => (hpairs p hp).1) (harena ▸ ha) (harena ▸ hac)
          fun p hp => (hpairs p hp).2
      | any pair alternatives =>
        rw [hplan] at hpairs
        refine compareAlternatives_ends (fun t s ok s' h => hnext.binding _ _ _ s ok s' h) fun t ht s' hs' => ?_
        refine (hpairs (pair t) (mem_map_of_mem ht)).2 s' ?_ ?_ ?_
        · rw [hs']
          exact .refl _
        · rw [hs', harena]
          exact ha
        · rw [hs', harena]
          exact hac
    obtain ⟨⟨ok, after⟩, hafter⟩ := Option.isSome_iff_exists.mp hrun
    rw [hafter]
    rfl

/-- **The inner count suffices**: a depth above the weight of the two types is not used up before a
    variable is bound. -/
theorem compareAt_ends {lower : Comparison} (hlower : lower.Confining F) (hF : F.Coherent)
    (hfree : ¬F.placeholders) {unbound : Nat}
    (hends : ∀ l r level (s : Store), l.In F → r.In F → s.arena.Closed F → s.arena.Acyclic →
      s.arena.unboundCount < unbound → (lower l r level s).isSome)
    {depth : Nat} (hl : l.In F) (hr : r.In F) (ha : s.arena.Closed F) (hac : s.arena.Acyclic)
    (hcount : s.arena.unboundCount ≤ unbound) (hdepth : s.arena.weight l + s.arena.weight r < depth) :
    (compareAt defs lower unbound depth l r level s).isSome := by
  have hd : defs.In F := fun hp => absurd hp hfree
  induction depth generalizing l r level s with
  | zero => exact absurd hdepth (Nat.not_lt_zero _)
  | succ depth ih =>
    have hconfining := compareAt_meets (fun _ => compareStep_confining hd) hlower unbound depth
    refine compareStep_ends ?_ hF hd hl hr ha hac fun p hp hp₁ hp₂ s' hb ha' hac' => ?_
    · intro l r level s ok s' hrun
      simp only [] at hrun
      split at hrun
      · exact hlower l r level s ok s' hrun
      · exact hconfining l r level s ok s' hrun
    · split
      · exact hends _ _ _ s' hp₁ hp₂ ha' hac' ‹_›
      · -- Nothing was bound, so the weights are still the same.
        have hle := hb.grows.unboundCount_le hb.size_eq
        have hsame : s'.arena = s.arena := hle.2 (by omega)
        refine ih hp₁ hp₂ ha' hac' (by omega) ?_
        have hlighter := hp.lighter hfree s.arena (ha.follow hl) (ha.follow hr)
        have hl' := weight_follow_le hac l
        have hr' := weight_follow_le hac r
        rw [hsame]
        omega

/-- **The outer count suffices**: it bounds the number of unbound variables. -/
theorem compareWithin_ends (hF : F.Coherent) (hfree : ¬F.placeholders) {unbound : Nat} (hl : l.In F)
    (hr : r.In F) (ha : s.arena.Closed F) (hac : s.arena.Acyclic) (hcount : s.arena.unboundCount ≤ unbound) :
    (compareWithin defs unbound l r level s).isSome := by
  have hdepth : s.arena.weight l + s.arena.weight r < s.arena.depthFor l r := by
    unfold depthFor unfoldingAllowance
    omega
  induction unbound generalizing l r level s with
  | zero =>
    refine compareAt_ends (fun _ _ _ _ _ _ h => by cases h) hF hfree ?_ hl hr ha hac hcount hdepth
    exact fun _ _ _ _ _ _ _ _ h => absurd h (Nat.not_lt_zero _)
  | succ n ih =>
    refine compareAt_ends (compareWithin_confining (fun hp => absurd hp hfree) n) hF hfree ?_ hl hr ha hac hcount hdepth
    intro l r level s hl hr ha hac hlt
    exact ih hl hr ha hac (by omega) (by unfold depthFor unfoldingAllowance; omega)

/-- **Unification without placeholders comes to an end.** -/
theorem unify_ends (hF : F.Coherent) (hfree : ¬F.placeholders) (hl : l.In F) (hr : r.In F)
    (ha : s.arena.Closed F) (hac : s.arena.Acyclic) : (s.unify defs l r).1 ≠ .endless := by
  have hsome : (compareWithin defs s.arena.unboundCount l r 0 s).isSome :=
    compareWithin_ends hF hfree hl hr ha hac (Nat.le_refl _)
  unfold Store.unify
  split
  · exact Verdict.noConfusion
  · exact Verdict.noConfusion
  · rename_i hnone
    rw [hnone] at hsome
    cases hsome

end Ends

end UnionTyping
