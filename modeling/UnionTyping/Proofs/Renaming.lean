import UnionTyping.Proofs.DamasMilner
import UnionTyping.Proofs.Normal

/-!
# `Proofs.Renaming` — a copy is the exposed type with its generic variables renamed

Where types are solid, copying a type follows its bindings and renames what it finds there. The renaming
is spread over a computation with a state: a variable gets its counterpart when it is first met, and keeps
it (`Discipline.Yields`: whatever is found by the end is what a step has given). So all occurrences are
renamed alike, different variables differently, and pinned variables not at all. Copies of solid types are
solid (`typeOf_solid`), and where there are no unions a lookup is such a renaming (`typeOf_single`).
-/

namespace UnionTyping

open List Ty Arena

/-! ## Results that later states agree with -/

variable {t : Ty}

namespace Discipline

variable {σ ι α : Type} {D : Discipline σ ι}

/-- The computation keeps the discipline, and **all later states agree about its result**. -/
def Yields (D : Discipline σ ι) (value : σ → α) (m : StateM σ α) : Prop :=
  ∀ s, D.Inv s → D.Inv (m.run s).2 ∧ D.Step s (m.run s).2 ∧
    ∀ s', D.Step (m.run s).2 s' → value s' = (m.run s).1

theorem Yields.pure (x : α) : D.Yields (fun _ => x) (pure x) :=
  fun s hs => ⟨hs, D.refl s, fun _ _ => rfl⟩

theorem Yields.bind {β : Type} {value : σ → α} {m : StateM σ α} {k : α → StateM σ β} {g : α → σ → β}
    (hm : D.Yields value m) (hk : ∀ x, D.Yields (g x) (k x)) : D.Yields (fun s => g (value s) s) (m >>= k) := by
  intro s hs
  obtain ⟨hinv, hstep, hvalue⟩ := hm s hs
  obtain ⟨hinv', hstep', hvalue'⟩ := hk (m.run s).1 (m.run s).2 hinv
  refine ⟨hinv', D.trans hstep hstep', fun s' hs' => ?_⟩
  have hfirst : value s' = (m.run s).1 := hvalue s' (D.trans hstep' hs')
  exact Eq.trans (congrArg (g · s') hfirst) (hvalue' s' hs')

theorem Yields.get_bind {value : σ → α} {k : σ → StateM σ α} (h : ∀ s, D.Inv s → D.Yields value (k s)) :
    D.Yields value (get >>= k) :=
  fun s hs => h s hs s hs

end Discipline

section Replacement

variable {σ ι : Type} {D : Discipline σ ι} {f : TyVar → StateM σ Ty} {value : σ → TyVar → Ty}

theorem substListM_yields {ts : List Ty} (h : ∀ t ∈ ts, D.Yields (fun s => t.subst (value s)) (t.substM f)) :
    D.Yields (fun s => substList (value s) ts) (substListM f ts) := by
  induction ts with
  | nil => exact .pure []
  | cons t ts ih =>
    obtain ⟨ht, hts⟩ := forall_mem_cons.mp h
    exact ht.bind (g := fun u s => u :: substList (value s) ts) fun u =>
      (ih hts).bind (g := fun us _ => u :: us) fun us => .pure (u :: us)

theorem substFieldsM_yields {fs : List (String × Ty)}
    (h : ∀ e ∈ fs, D.Yields (fun s => e.2.subst (value s)) (e.2.substM f)) :
    D.Yields (fun s => substFields (value s) fs) (substFieldsM f fs) := by
  induction fs with
  | nil => exact .pure []
  | cons e fs ih =>
    obtain ⟨he, hfs⟩ := forall_mem_cons.mp h
    exact he.bind (g := fun u s => (e.1, u) :: substFields (value s) fs) fun u =>
      (ih hfs).bind (g := fun us _ => (e.1, u) :: us) fun us => .pure ((e.1, u) :: us)

/-- **A replacement with a state is a substitution** by what later states agree about. -/
theorem substM_yields (h : ∀ v ∈ t.vars, D.Yields (fun s => value s v) (f v)) :
    D.Yields (fun s => t.subst (value s)) (t.substM f) := by
  induction t using structural with
  | simple n => exact .pure (simple n)
  | func a r ha hr =>
    simp only [vars, mem_append] at h
    exact (ha fun v hv => h v (Or.inl hv)).bind (g := fun u s => func u (r.subst (value s))) fun u =>
      (hr fun v hv => h v (Or.inr hv)).bind (g := fun w _ => func u w) fun w => .pure (func u w)
  | record n as fs has hfs =>
    simp only [vars, varsList_eq_flatMap, varsFields_eq_flatMap, mem_append, mem_flatMap] at h
    have hargs := substListM_yields fun t ht => has t ht fun v hv => h v (Or.inl ⟨t, ht, hv⟩)
    have hfields := substFieldsM_yields fun e he => hfs e he fun v hv => h v (Or.inr ⟨e, he, hv⟩)
    exact hargs.bind (g := fun us s => record n us (substFields (value s) fs)) fun us =>
      hfields.bind (g := fun gs _ => record n us gs) fun gs => .pure (record n us gs)
  | algebraic n as os has hos =>
    simp only [vars, varsList_eq_flatMap, mem_append, mem_flatMap] at h
    have hargs := substListM_yields fun t ht => has t ht fun v hv => h v (Or.inl ⟨t, ht, hv⟩)
    have hoptions := substListM_yields fun t ht => hos t ht fun v hv => h v (Or.inr ⟨t, ht, hv⟩)
    exact hargs.bind (g := fun us s => algebraic n us (substList (value s) os)) fun us =>
      hoptions.bind (g := fun ps _ => algebraic n us ps) fun ps => .pure (algebraic n us ps)
  | recursive n as has =>
    simp only [vars, varsList_eq_flatMap, mem_flatMap] at h
    have hargs := substListM_yields fun t ht => has t ht fun v hv => h v ⟨t, ht, hv⟩
    exact hargs.bind (g := fun us _ => recursive n us) fun us => .pure (recursive n us)
  | union ms hms =>
    simp only [vars, varsList_eq_flatMap, mem_flatMap] at h
    have hmembers := substListM_yields fun t ht => hms t ht fun v hv => h v ⟨t, ht, hv⟩
    exact hmembers.bind (g := fun us _ => join us) fun us => .pure (join us)
  | var v => exact h v (by simp)

end Replacement

/-! ## Counterparts -/

variable {a : Arena}

/-- A type without unions is solid. -/
theorem Fragment.FirstOrder.solid {F : Fragment} (hF : F.FirstOrder) (ht : t.In F) : t.Solid :=
  fun hnil => hF.choices (ht _ hnil).1

namespace Copying

/-- The variable that a variable is renamed to. -/
def counterpart (pinned : List Nat) (c : Copying) (v : TyVar) : TyVar :=
  if v.id ∈ pinned then v else (c.counterparts.lookup v.id).getD v

/-- **The counterparts handed out so far** are new, and each is that of one variable. -/
structure Renames (a : Arena) (c : Copying) : Prop where
  same : ∀ id, c.arena.binding? id = a.binding? id
  named : ∀ {id w}, c.counterparts.lookup id = some w → c.arena.name? w.id = some w.name
  injective : ∀ {i j v w}, c.counterparts.lookup i = some v → c.counterparts.lookup j = some w →
    v.id = w.id → i = j

/-- Renaming keeps the counterparts that there are. -/
def steady (a : Arena) : Discipline Copying TyVar where
  Inv := Renames a
  Step c d := ∀ id w, c.counterparts.lookup id = some w → d.counterparts.lookup id = some w
  Out _ _ := True
  refl _ _ _ h := h
  trans h h' id w hw := h' id w (h id w hw)
  mono _ _ := trivial

variable {pinned : List Nat}

theorem Renames.fresh {c : Copying} (hc : Renames a c) (id : Nat) :
    Renames a ⟨c.arena.fresh.2, (id, c.arena.fresh.1) :: c.counterparts⟩ := by
  -- a counterpart that was handed out before has a smaller number than the new one
  have hold : ∀ {i w}, c.counterparts.lookup i = some w → w.id ≠ c.arena.fresh.1.id :=
    fun h => Nat.ne_of_lt (lt_size_of_name? (hc.named h))
  constructor
  · intro i
    rw [binding?_fresh, hc.same]
  · intro i w hw
    rw [lookup_cons_ite] at hw
    split at hw
    · rw [← Option.some.inj hw]
      exact c.arena.name?_fresh_self
    · rw [name?_fresh _ (lt_size_of_name? (hc.named hw))]
      exact hc.named hw
  · intro i j v w hv hw heq
    rw [lookup_cons_ite] at hv hw
    split at hv <;> split at hw
    · rename_i hi hj
      rw [hi, hj]
    · rw [← Option.some.inj hv] at heq
      exact absurd heq.symm (hold hw)
    · rw [← Option.some.inj hw] at heq
      exact absurd heq (hold hv)
    · exact hc.injective hv hw heq

theorem rename_yields (v : TyVar) : (steady a).Yields (fun c => .var (c.counterpart pinned v)) (rename pinned v) := by
  intro c hc
  rw [run_rename]
  by_cases hpinned : v.id ∈ pinned
  · rw [if_pos (contains_iff_mem.mpr hpinned)]
    refine ⟨hc, (steady a).refl c, fun d _ => ?_⟩
    simp [counterpart, if_pos hpinned]
  · rw [if_neg (mt contains_iff_mem.mp hpinned)]
    cases hlookup : c.counterparts.lookup v.id with
    | some w =>
      refine ⟨hc, (steady a).refl c, fun d hd => ?_⟩
      simp [counterpart, if_neg hpinned, hd _ _ hlookup]
    | none =>
      refine ⟨hc.fresh v.id, fun id w hw => ?_, fun d hd => ?_⟩
      · rw [lookup_cons_ite, if_neg, hw]
        rintro rfl
        rw [hlookup] at hw
        cases hw
      · have hnew := hd v.id c.arena.fresh.1 (by rw [lookup_cons_ite, if_pos rfl])
        simp [counterpart, if_neg hpinned, hnew]

/-- **A copy is the exposed type, renamed.** -/
theorem copyWithin_yields {F : Fragment} (hF : ∀ t : Ty, t.In F → t.Solid) (ha : a.Closed F) (hops : Nat)
    (ht : t.In F) :
    (steady a).Yields (fun c => (a.exposeWithin hops t).rename (c.counterpart pinned)) (copyWithin pinned hops t) := by
  have hrenamed : ∀ (c : Copying) (v : TyVar), (var (c.counterpart pinned v)).Solid ∧
      (var (c.counterpart pinned v)).Normal := fun c v => ⟨solid_var _, normal_var _⟩
  induction hops generalizing t with
  | zero =>
    have hexpose : ∀ c : Copying, (a.exposeWithin 0 t).rename (c.counterpart pinned) =
        t.subst fun v => .var (c.counterpart pinned v) :=
      fun c => (hF t ht).subst_subst (fun v _ => solid_var v) (hrenamed c)
    simp only [hexpose]
    exact substM_yields fun v _ => rename_yields v
  | succ hops ih =>
    have hvar : ∀ v ∈ t.vars, (steady a).Yields
        (fun c => (a.exposeWithin (hops + 1) (.var v)).rename (c.counterpart pinned))
        (copyWithin pinned (hops + 1) (.var v)) := by
      intro v hv
      refine .get_bind fun c hc => ?_
      rw [hc.same]
      cases hb : a.binding? v.id with
      | some b =>
        simp only [exposeWithin, subst, hb]
        exact ih (ha v b (ht.vars hv) hb)
      | none =>
        simp only [exposeWithin, subst, hb]
        exact rename_yields v
    have hsolid : ∀ v ∈ t.vars, (a.exposeWithin (hops + 1) (.var v)).Solid :=
      fun v hv => hF _ (ha.exposeWithin (hops + 1) (in_var.mpr (ht.vars hv)))
    have hexpose : ∀ c : Copying, (a.exposeWithin (hops + 1) t).rename (c.counterpart pinned) =
        t.subst fun v => (a.exposeWithin (hops + 1) (.var v)).rename (c.counterpart pinned) :=
      fun c => (hF t ht).subst_subst hsolid (hrenamed c)
    simp only [hexpose]
    exact substM_yields hvar

end Copying

/-! ## Copies of solid types -/

variable {e : Environment} {l : Locator}

/-- In a fragment without hollow unions all types are solid. -/
theorem Ty.In.solid {K : Fragment} (hK : ¬K.hollow) (ht : t.In K) : t.Solid :=
  fun hnil => hK ((ht _ hnil).2 rfl)

theorem Arena.Solid.closed (ha : a.Solid) : a.Closed .solid :=
  fun v t _ ht => in_solid.mpr (ha v.id t ht)

section Fragments

variable {K : Fragment} (hvars : ∀ v, K.vars v) (hsolid : ¬K.hollow)
include hvars hsolid

theorem Copying.in_copyAll (ha : a.Closed K) (pinned : List Nat) {ts : List Ty} (hts : ∀ t ∈ ts, t.In K)
    {c : Copying} (hc : Renames a c) : ∀ u ∈ ((copyAll pinned ts).run c).1, u.In K := by
  induction ts generalizing c with
  | nil => exact fun u hu => absurd hu not_mem_nil
  | cons t ts ih =>
    obtain ⟨ht, hts⟩ := forall_mem_cons.mp hts
    have hyields : (steady a).Yields (fun d => (a.exposeWithin c.arena.size t).rename (d.counterpart pinned))
        (copyWithin pinned c.arena.size t) :=
      copyWithin_yields (fun _ => In.solid hsolid) ha c.arena.size ht
    obtain ⟨hrenames, -, hvalue⟩ := hyields c hc
    have hcopy := hvalue _ ((steady a).refl _)
    intro u hu
    rcases mem_cons.mp hu with hu | hu
    · rw [hu.trans hcopy.symm]
      exact (ha.exposeWithin _ ht).subst fun v _ => in_var.mpr (hvars _)
    · exact ih hts hrenames u hu

/-- **The type of a symbol keeps to the constructors of its candidates**, where none of them is hollow. -/
theorem typeOf_in (hchoices : K.choices) (ha : a.Closed K) (hl : ∀ t ∈ e.candidates l, t.In K)
    (h : (e.typeOf a l).1 = some t) : t.In K := by
  rcases typeOf_cases e a l with ⟨-, hnone⟩ | ⟨copies, d, hrun, htype⟩
  · rw [hnone] at h
    cases h
  · have hcopies := Copying.in_copyAll hvars hsolid ha (e.pinnedIds a) hl (c := { arena := a })
      ⟨fun _ => rfl, by simp, by simp⟩
    rw [hrun] at hcopies
    rw [htype] at h
    -- the copies are exposed in an arena with the same bindings
    have hd : d.arena.Closed K := by
      intro v u hv hu
      have hsame := (typeOf_same e a l).2 v.id
      rw [htype] at hsame
      exact ha v u hv (hsame ▸ hu)
    refine In.of_union? hchoices (fun u hu => ?_) h
    obtain ⟨copy, hcopy, rfl⟩ := mem_map.mp hu
    exact hd.expose (hcopies copy hcopy)

end Fragments

/-- **The type of a symbol is solid** if its candidates are. -/
theorem typeOf_solid (ha : a.Solid) (hl : ∀ t ∈ e.candidates l, t.Solid) (h : (e.typeOf a l).1 = some t) : t.Solid := by
  refine in_solid.mp (typeOf_in (fun _ => trivial) not_false trivial ha.closed (fun u hu => ?_) h)
  exact in_solid.mpr (hl u hu)

/-! ## Looking up a symbol with one candidate -/

/-- **The variables of a type are renamed**, from one arena to the next: pinned ones to themselves, and all
    others to new variables, no two to the same one. -/
structure Arena.Renaming (a b : Arena) (pinned : List Nat) (t : Ty) (ρ : TyVar → TyVar) : Prop where
  grows : a.Extends b
  same : ∀ id, b.binding? id = a.binding? id
  kept : ∀ v, v.id ∈ pinned → ρ v = v
  fresh : ∀ v ∈ t.vars, v.id ∉ pinned → a.size ≤ (ρ v).id ∧ b.name? (ρ v).id = some (ρ v).name
  injective : ∀ v ∈ t.vars, ∀ w ∈ t.vars, v.id ∉ pinned → w.id ∉ pinned → ρ v = ρ w → v.id = w.id

namespace Copying

theorem run_copyAll_single {F : Fragment} (hF : F.FirstOrder) (ha : a.Ready F) (ht : t.In F) (pinned : List Nat) :
    ∃ c ρ, (copyAll pinned [t]).run { arena := a } = ([(a.expose t).rename ρ], c) ∧
      a.Renaming c.arena pinned (a.expose t) ρ := by
  have hyields : (steady a).Yields (fun c => (a.expose t).rename (c.counterpart pinned))
      (copyWithin pinned a.size t) := copyWithin_yields (fun _ => hF.solid) ha.closed a.size ht
  obtain ⟨hrenames, -, hvalue⟩ := hyields { arena := a } ⟨fun _ => rfl, by simp, by simp⟩
  generalize hrun : (copyWithin pinned a.size t).run { arena := a } = out at hrenames hvalue
  obtain ⟨u, c⟩ := out
  have hu : (a.expose t).rename (c.counterpart pinned) = u := hvalue c ((steady a).refl c)
  have hcopy : (copyAll pinned [t]).run { arena := a } = ([u], c) := by
    have hsingle : (copyAll pinned [t]).run { arena := a } =
        ([((copyWithin pinned a.size t).run { arena := a }).1],
          ((copyWithin pinned a.size t).run { arena := a }).2) := rfl
    rw [hsingle, hrun]
  obtain ⟨⟨hgrows, hsame, hparts⟩, hout⟩ := run_copyAll ha.closed (by simpa using ht) hcopy
  -- a variable that is not pinned was met, for otherwise it would be part of the copy
  have hmet : ∀ v ∈ (a.expose t).vars, v.id ∉ pinned → c.counterparts.lookup v.id = some (c.counterpart pinned v) := by
    intro v hv hpinned
    have hmem : c.counterpart pinned v ∈ u.vars := hu ▸ mem_vars_rename.mpr ⟨v, hv, rfl⟩
    simp only [counterpart, if_neg hpinned] at hmem ⊢
    cases hlookup : c.counterparts.lookup v.id with
    | some w => rfl
    | none =>
      rw [hlookup] at hmem
      rcases hout u (mem_singleton_self u) v hmem with ⟨hmem, -⟩ | ⟨hsize, -⟩
      · exact absurd hmem hpinned
      · have hlt := ha.allocated v ((ha.closed.expose ht).vars hv)
        omega
  refine ⟨c, c.counterpart pinned, hu ▸ hcopy, hgrows, hsame, ?_, ?_, ?_⟩
  · intro v hpinned
    exact if_pos hpinned
  · intro v hv hpinned
    exact hparts _ (mem_of_lookup (hmet v hv hpinned))
  · intro v hv w hw hpv hpw heq
    exact hrenames.injective (hmet v hv hpv) (hmet w hw hpw) (congrArg TyVar.id heq)

end Copying

theorem Ty.FirstOrder.alternatives (ht : t.FirstOrder) : t.alternatives = [t] := by
  cases t with
  | union ms => cases ht _ (self_mem_subterms _)
  | _ => rfl

theorem Ty.FirstOrder.union? (ht : t.FirstOrder) : Ty.union? [t] = some t := by
  simp [Ty.union?, ht.alternatives, eraseDups_cons]

/-- **A symbol with one candidate is looked up** by renaming what it exposes to. -/
theorem typeOf_single {F : Fragment} (hF : F.FirstOrder) (ha : a.Ready F) (ht : t.In F)
    (hl : e.candidates l = [t]) : ∃ ρ b, e.typeOf a l = (some ((a.expose t).rename ρ), b) ∧
      a.Renaming b (e.pinnedIds a) (a.expose t) ρ := by
  obtain ⟨c, ρ, hcopy, hρ⟩ := Copying.run_copyAll_single hF ha ht (e.pinnedIds a)
  refine ⟨ρ, c.arena, ?_, hρ⟩
  have hplain : (a.expose t).FirstOrder := (ha.closed.expose ht).firstOrder hF.choices hF.placeholders
  -- what a copy consists of is unbound
  have hunbound : ∀ v ∈ (a.expose t).vars, c.arena.value (ρ v) = .var (ρ v) := by
    intro v hv
    refine value_unbound ?_
    rw [hρ.same]
    by_cases hpinned : v.id ∈ e.pinnedIds a
    · rw [hρ.kept v hpinned]
      exact unbound_of_mem_expose ha.acyclic hv
    · exact binding?_eq_none (hρ.fresh v hv hpinned).1
  have hexpose : c.arena.expose ((a.expose t).rename ρ) = (a.expose t).rename ρ := by
    rw [expose_unfold (ha.acyclic.congr hρ.same), hplain.subst_rename]
    exact subst_congr hunbound
  rcases typeOf_cases e a l with ⟨hnone, -⟩ | ⟨copies, d, hrun, htype⟩
  · rw [hl] at hnone
    cases hnone
  · rw [hl, hcopy] at hrun
    cases hrun
    rw [htype, map_singleton, hexpose, (hplain.rename ρ).union?]

end UnionTyping
