import UnionTyping.Proofs.Alike
import UnionTyping.Proofs.Inference
import UnionTyping.Proofs.Renaming
import Mathlib.Data.Set.Function

/-!
# `Proofs.Lookup` — looking a symbol up instantiates its generic variables and no others

A lookup copies the candidates of a symbol one after the other, following bindings, handing out variables and
bringing unions into normal form on the way. What comes of it is simple: every candidate is exposed, and then its
variables are renamed, all candidates under one renaming. Variables that are free in a pinned type keep their names,
and the others get new ones, no two of them the same (`Environment.Instantiates`, `lookup_instantiates`).

Normal forms are the point where this could go wrong. Members of a union are dropped if they are equal, so a renaming
goes through normal forms only if it tells variables apart (`Ty.relabel_subst`). The renaming of a lookup does, as long
as all variables of the candidates were handed out before; a stray one can be taken for a new variable
(`stray_variable_is_captured`).
-/

namespace UnionTyping

open List Ty Arena

/-! ## Renaming and nothing else -/

variable {t : Ty} {v : TyVar}

namespace Ty

mutual
/-- The type with its variables renamed, and nothing else changed. -/
def relabel (ρ : TyVar → TyVar) : Ty → Ty
  | .simple n => .simple n
  | .func a r => .func (relabel ρ a) (relabel ρ r)
  | .record n args fields => .record n (relabelList ρ args) (relabelFields ρ fields)
  | .algebraic n args options => .algebraic n (relabelList ρ args) (relabelList ρ options)
  | .recursive n args => .recursive n (relabelList ρ args)
  | .union members => .union (relabelList ρ members)
  | .var v => .var (ρ v)

/-- Renames the variables of a list of types. -/
def relabelList (ρ : TyVar → TyVar) : List Ty → List Ty
  | [] => []
  | t :: ts => relabel ρ t :: relabelList ρ ts

/-- Renames the variables of a list of fields. -/
def relabelFields (ρ : TyVar → TyVar) : List (String × Ty) → List (String × Ty)
  | [] => []
  | (l, t) :: fs => (l, relabel ρ t) :: relabelFields ρ fs
end

variable {ρ : TyVar → TyVar} {S : Set TyVar}

theorem relabelList_eq_map (ρ : TyVar → TyVar) (ts : List Ty) : relabelList ρ ts = ts.map (relabel ρ) := by
  induction ts with
  | nil => rfl
  | cons t ts ih => rw [relabelList, ih, map_cons]

theorem relabelFields_eq_map (ρ : TyVar → TyVar) (fs : List (String × Ty)) :
    relabelFields ρ fs = fs.map fun e => (e.1, relabel ρ e.2) := by
  induction fs with
  | nil => rfl
  | cons e fs ih => rw [relabelFields, ih, map_cons]

/-- The variables of the type are in the set. -/
abbrev VarsIn (S : Set TyVar) (t : Ty) : Prop :=
  ∀ v ∈ t.vars, v ∈ S

theorem VarsIn.child {c : Ty} (h : t.VarsIn S) (hc : c ∈ t.children) : c.VarsIn S :=
  fun v hv => h v (mem_vars_of_child hc hv)

theorem relabel_eq_mapChildren (h : ∀ v, t ≠ .var v) : t.relabel ρ = t.mapChildren (relabel ρ) := by
  cases t with
  | var v => exact absurd rfl (h v)
  | _ => simp [relabel, mapChildren, relabelList_eq_map, relabelFields_eq_map]

/-- Names that are given back leave the type as it was. -/
theorem relabel_relabel_eq_self {ρ' : TyVar → TyVar} (h : ∀ v ∈ t.vars, ρ' (ρ v) = v) :
    (t.relabel ρ).relabel ρ' = t := by
  induction t using childwise with
  | step t ih =>
    cases t with
    | var v => exact congrArg var (h v (by simp))
    | simple n => rfl
    | _ =>
      simp only [relabel, relabelList_eq_map, relabelFields_eq_map, map_map]
      exact mapChildren_of_forall_eq fun c hc => ih c hc fun v hv => h v (mem_vars_of_child hc hv)

/-- **A renaming that keeps variables apart keeps types apart.** -/
theorem relabel_injOn {u : Ty} (hρ : Set.InjOn ρ S) (ht : t.VarsIn S) (hu : u.VarsIn S)
    (h : t.relabel ρ = u.relabel ρ) : t = u := by
  have : Nonempty TyVar := ⟨⟨0, ""⟩⟩
  have hback : Set.LeftInvOn (Function.invFunOn ρ S) ρ S := hρ.leftInvOn_invFunOn
  rw [← relabel_relabel_eq_self fun v hv => hback (ht v hv), h, relabel_relabel_eq_self fun v hv => hback (hu v hv)]

/-- Replacing what was renamed is replacing once. -/
theorem subst_relabel (ρ : TyVar → TyVar) (f : TyVar → Ty) (t : Ty) :
    (t.relabel ρ).subst f = t.subst fun v => f (ρ v) := by
  induction t using rigidly with
  | var v => rfl
  | union ms ih =>
    simp only [relabel, subst, relabelList_eq_map, substList_eq_map, map_map]
    exact congrArg join (map_congr_left ih)
  | rigid t ht ih =>
    rw [relabel_eq_mapChildren ht.ne_var, (ht.mapChildren _).subst_eq, ht.subst_eq, mapChildren_mapChildren]
    exact mapChildren_congr ih

theorem alternatives_relabel (ρ : TyVar → TyVar) (t : Ty) :
    (t.relabel ρ).alternatives = t.alternatives.map (relabel ρ) := by
  cases t with
  | union ms => simp [relabel, alternatives, relabelList_eq_map]
  | _ => rfl

/-- **Unions are built alike before and after a renaming**, if it keeps variables apart. -/
theorem union?_relabel (hρ : Set.InjOn ρ S) {ms : List Ty} (hms : ∀ m ∈ ms, m.VarsIn S) :
    union? (ms.map (relabel ρ)) = (union? ms).map (relabel ρ) := by
  have hflat : (ms.map (relabel ρ)).flatMap alternatives = (ms.flatMap alternatives).map (relabel ρ) := by
    rw [flatMap_map, map_flatMap]
    simp [alternatives_relabel]
  have hmember : ∀ u ∈ ms.flatMap alternatives, u.VarsIn S := by
    intro u hu v hv
    obtain ⟨m, hm, hum⟩ := mem_flatMap.mp hu
    exact hms m hm v (mem_vars_alternatives.mp ⟨u, hum, hv⟩)
  unfold union?
  rw [hflat, eraseDups_map fun x hx y hy => relabel_injOn hρ (hmember x hx) (hmember y hy)]
  cases (ms.flatMap alternatives).eraseDups with
  | nil => rfl
  | cons x xs =>
    cases xs with
    | nil => rfl
    | cons y ys => simp [relabel, relabelList_eq_map]

theorem join_relabel (hρ : Set.InjOn ρ S) {ms : List Ty} (hms : ∀ m ∈ ms, m.VarsIn S) :
    join (ms.map (relabel ρ)) = (join ms).relabel ρ := by
  unfold join
  rw [union?_relabel hρ hms]
  cases union? ms with
  | some t => rfl
  | none => simp [relabel, relabelList_eq_map]

/-- **A renaming goes through replacement**, normal forms included, if it keeps variables apart. -/
theorem relabel_subst (hρ : Set.InjOn ρ S) {f : TyVar → Ty} (ht : ∀ v ∈ t.vars, (f v).VarsIn S) :
    (t.subst f).relabel ρ = t.subst fun v => (f v).relabel ρ := by
  induction t using rigidly with
  | var v => rfl
  | union ms ih =>
    have hpart : ∀ m ∈ ms, ∀ v ∈ m.vars, (f v).VarsIn S :=
      fun m hm v hv => ht v (mem_vars_of_child (t := .union ms) hm hv)
    have hmembers : ms.map (relabel ρ ∘ subst f) = ms.map (subst fun v => (f v).relabel ρ) :=
      map_congr_left fun m hm => ih m hm (hpart m hm)
    have hvars : ∀ m ∈ ms.map (subst f), m.VarsIn S := by
      refine forall_mem_map.mpr fun m hm v hv => ?_
      obtain ⟨w, hw, hv⟩ := mem_vars_subst.mp hv
      exact hpart m hm w hw v hv
    rw [subst, subst, substList_eq_map, substList_eq_map, ← hmembers, ← map_map, join_relabel hρ hvars]
  | rigid t hrigid ih =>
    rw [relabel_eq_mapChildren hrigid.subst.ne_var, hrigid.subst_eq, hrigid.subst_eq, mapChildren_mapChildren]
    exact mapChildren_congr fun c hc => ih c hc fun v hv => ht v (mem_vars_of_child hc hv)

/-- A type that is as substitution leaves it is renamed plainly. -/
theorem rename_eq_relabel (hρ : Set.InjOn ρ S) (ht : t.VarsIn S) (hnormal : t.subst .var = t) :
    t.rename ρ = t.relabel ρ := by
  have hrelabel : (t.subst .var).relabel ρ = t.rename ρ :=
    relabel_subst hρ fun v hv w hw => mem_singleton.mp hw ▸ ht v hv
  rw [← hrelabel, hnormal]

end Ty

/-! ## What is seen of a type under a renaming -/

namespace Arena

variable {a : Arena} {ρ : TyVar → TyVar}

/-- Replaces bound variables along paths of at most `hops` bindings, and renames those at the end. -/
def exposeAs (a : Arena) (ρ : TyVar → TyVar) : (hops : Nat) → Ty → Ty
  | 0, t => t.subst fun v => .var (ρ v)
  | hops + 1, t => t.subst fun v => (a.binding? v.id).elim (.var (ρ v)) (a.exposeAs ρ hops)

/-- **What is seen under a renaming is what is seen, renamed.** -/
theorem exposeAs_eq_relabel {S : Set TyVar} (hρ : Set.InjOn ρ S) {hops : Nat}
    (ht : (a.exposeWithin hops t).VarsIn S) :
    a.exposeAs ρ hops t = (a.exposeWithin hops t).relabel ρ := by
  induction hops generalizing t with
  | zero =>
    have hvars : ∀ v ∈ t.vars, (var v).VarsIn S := fun v hv w hw =>
      ht w (mem_vars_subst.mpr ⟨v, hv, hw⟩)
    exact (relabel_subst hρ hvars).symm
  | succ hops ih =>
    unfold exposeAs exposeWithin
    rw [relabel_subst hρ fun v hv w hw => ht w (mem_vars_subst.mpr ⟨v, hv, hw⟩)]
    refine subst_congr fun v hv => ?_
    cases hb : a.binding? v.id with
    | none => rfl
    | some u =>
      refine ih fun w hw => ht w (mem_vars_subst.mpr ⟨v, hv, ?_⟩)
      simp only [hb]
      exact hw

theorem mem_vars_exposeAs {hops : Nat} (hv : v ∈ (a.exposeWithin hops t).vars) : ρ v ∈ (a.exposeAs ρ hops t).vars := by
  induction hops generalizing t with
  | zero =>
    obtain ⟨w, hw, hv⟩ := mem_vars_subst.mp hv
    rw [mem_singleton.mp hv]
    exact mem_vars_subst.mpr ⟨w, hw, by simp⟩
  | succ hops ih =>
    obtain ⟨w, hw, hv⟩ := mem_vars_subst.mp hv
    refine mem_vars_subst.mpr ⟨w, hw, ?_⟩
    cases hb : a.binding? w.id with
    | none =>
      simp only [hb] at hv
      rw [mem_singleton.mp hv]
      simp
    | some u =>
      simp only [hb] at hv
      exact ih hv

theorem exposeAs_of_within {n m : Nat} (h : a.Within n t) (hnm : n ≤ m) : a.exposeAs ρ m t = a.exposeAs ρ n t := by
  refine h.stable (fun m t ht => ?_) (fun m n t ht => ?_) hnm
  · exact subst_congr fun v hv => by rw [ht v hv]; rfl
  · refine subst_congr fun v hv => ?_
    cases hu : a.binding? v.id with
    | none => rfl
    | some u => exact ht v hv u hu

end Arena

theorem Arena.WellFormed.owns_expose {a : Arena} (ha : a.WellFormed) (ht : a.Owns t) : a.Owns (a.expose t) :=
  Regime.in_owned_zero.mp ((Regime.closed_owned_zero.mpr ha.owned).expose (Regime.in_owned_zero.mpr ht))

/-! ## Copies -/

namespace Copying

variable {a : Arena} {pinned : List Nat}

/-- **A copy is what is seen under the counterparts handed out by the end.** -/
theorem copyWithin_exposes (hops : Nat) (t : Ty) :
    (steady a).Yields (fun d => a.exposeAs (d.counterpart pinned) hops t) (copyWithin pinned hops t) := by
  induction hops generalizing t with
  | zero => exact substM_yields fun v _ => rename_yields v
  | succ hops ih =>
    refine substM_yields fun v _ => .get_bind fun c hc => ?_
    rw [hc.same]
    cases a.binding? v.id with
    | some b => exact ih b
    | none => exact rename_yields v

/-- **A series of copies** is what is seen of the originals under one renaming. -/
theorem copyAll_exposes (ha : a.Acyclic) (pinned : List Nat) (ts : List Ty) {c : Copying}
    (hc : (discipline a pinned .everything).Inv c) (hrenames : Renames a c) :
    Renames a ((copyAll pinned ts).run c).2 ∧ (steady a).Step c ((copyAll pinned ts).run c).2 ∧
      ∀ d, (steady a).Step ((copyAll pinned ts).run c).2 d →
        ts.map (a.exposeAs (d.counterpart pinned) a.size) = ((copyAll pinned ts).run c).1 := by
  induction ts generalizing c with
  | nil => exact ⟨hrenames, (steady a).refl c, fun _ _ => rfl⟩
  | cons t ts ih =>
    have hexposes : (steady a).Yields (fun d => a.exposeAs (d.counterpart pinned) c.arena.size t)
        (copyWithin pinned c.arena.size t) := copyWithin_exposes c.arena.size t
    have hobeys : (discipline a pinned .everything).Obeys [] vars (copyWithin pinned c.arena.size t) :=
      copyWithin_obeys (fun _ u _ _ => u.in_everything) c.arena.size t.in_everything
    obtain ⟨hfirst, hstep, hvalue⟩ := hexposes c hrenames
    have hinv := (hobeys c hc (by simp)).1
    obtain ⟨hrest, hstep', hvalues⟩ := ih hinv hfirst
    refine ⟨hrest, (steady a).trans hstep hstep', fun d hd => ?_⟩
    -- more hops than there are variables make no difference
    have hhops := exposeAs_of_within (ρ := d.counterpart pinned) (ha.within t) hc.1.size_le
    rw [map_cons, ← hhops]
    exact congrArg₂ List.cons (hvalue d ((steady a).trans hstep' hd)) (hvalues d hd)

section Ended

variable {ts copies : List Ty} {c : Copying} (ha : a.WellFormed) (hts : ∀ t ∈ ts, a.Owns t)
  (hrun : (copyAll pinned ts).run { arena := a } = (copies, c))
include ha hrun

theorem copies_eq : Renames a c ∧ ts.map (a.exposeAs (c.counterpart pinned) a.size) = copies := by
  obtain ⟨hrenames, -, hcopies⟩ := copyAll_exposes ha.acyclic pinned ts (c := { arena := a })
    ⟨.refl a, fun _ => rfl, by simp⟩ ⟨fun _ => rfl, by simp, by simp⟩
  rw [hrun] at hrenames hcopies
  exact ⟨hrenames, hcopies c ((steady a).refl c)⟩

include hts

/-- **A generic variable was met**, for otherwise it would be part of a copy. -/
theorem lookup_counterpart (ht : t ∈ ts) (hv : v ∈ (a.expose t).vars) (hpinned : v.id ∉ pinned) :
    c.counterparts.lookup v.id = some (c.counterpart pinned v) := by
  obtain ⟨-, hout⟩ := run_copyAll (F := .everything) (fun _ t _ _ => t.in_everything) (fun t _ => t.in_everything) hrun
  have hcopy : a.exposeAs (c.counterpart pinned) a.size t ∈ copies :=
    (copies_eq ha hrun).2 ▸ mem_map_of_mem ht
  have hpart := hout _ hcopy _ (mem_vars_exposeAs hv)
  simp only [counterpart, if_neg hpinned] at hpart ⊢
  cases hlookup : c.counterparts.lookup v.id with
  | some w => rfl
  | none =>
    rw [hlookup, Option.getD_none] at hpart
    rcases hpart with ⟨hmem, -⟩ | ⟨hsize, -⟩
    · exact absurd hmem hpinned
    · exact absurd (lt_size_of_name? (ha.owns_expose (hts t ht) v hv)) (Nat.not_lt.mpr hsize)

/-- Its counterpart is new. -/
theorem counterpart_fresh (ht : t ∈ ts) (hv : v ∈ (a.expose t).vars) (hpinned : v.id ∉ pinned) :
    a.size ≤ (c.counterpart pinned v).id ∧
      c.arena.name? (c.counterpart pinned v).id = some (c.counterpart pinned v).name := by
  obtain ⟨⟨-, -, hparts⟩, -⟩ :=
    run_copyAll (F := .everything) (fun _ t _ _ => t.in_everything) (fun t _ => t.in_everything) hrun
  exact hparts _ (mem_of_lookup (lookup_counterpart ha hts hrun ht hv hpinned))

/-- **Variables that differ have counterparts that differ.** -/
theorem counterpart_injOn : Set.InjOn (c.counterpart pinned) {v | ∃ t ∈ ts, v ∈ (a.expose t).vars} := by
  rintro v ⟨t, ht, hv⟩ w ⟨u, hu, hw⟩ heq
  have hownedv := ha.owns_expose (hts t ht) v hv
  have hownedw := ha.owns_expose (hts u hu) w hw
  have hkept : ∀ x : TyVar, x.id ∈ pinned → c.counterpart pinned x = x := fun x hx => if_pos hx
  -- a new variable has a greater number than any that is kept
  by_cases hpv : v.id ∈ pinned <;> by_cases hpw : w.id ∈ pinned
  · rwa [hkept v hpv, hkept w hpw] at heq
  · have hge := (counterpart_fresh ha hts hrun hu hw hpw).1
    rw [← heq, hkept v hpv] at hge
    exact absurd (lt_size_of_name? hownedv) (Nat.not_lt.mpr hge)
  · have hge := (counterpart_fresh ha hts hrun ht hv hpv).1
    rw [heq, hkept w hpw] at hge
    exact absurd (lt_size_of_name? hownedw) (Nat.not_lt.mpr hge)
  · have hid := (copies_eq ha hrun).1.injective (lookup_counterpart ha hts hrun ht hv hpv)
      (lookup_counterpart ha hts hrun hu hw hpw) (congrArg TyVar.id heq)
    exact Regime.owned_coherent 0 a v w ⟨hownedv, Nat.zero_le _⟩ ⟨hownedw, Nat.zero_le _⟩ hid

/-- **A copy exposes to the exposed original, renamed.** -/
theorem expose_copy (ht : t ∈ ts) : c.arena.expose (a.exposeAs (c.counterpart pinned) a.size t) =
    (a.expose t).rename (c.counterpart pinned) := by
  obtain ⟨⟨-, hsame, -⟩, -⟩ :=
    run_copyAll (F := .everything) (fun _ t _ _ => t.in_everything) (fun t _ => t.in_everything) hrun
  rw [exposeAs_eq_relabel (counterpart_injOn ha hts hrun) fun v hv => ⟨t, ht, hv⟩,
    expose_unfold (ha.acyclic.congr hsame), subst_relabel]
  -- what a copy consists of is unbound
  refine subst_congr fun v hv => value_unbound ?_
  rw [hsame]
  by_cases hpinned : v.id ∈ pinned
  · rw [counterpart, if_pos hpinned]
    exact unbound_of_mem_expose ha.acyclic hv
  · exact binding?_eq_none (counterpart_fresh ha hts hrun ht hv hpinned).1

end Ended
end Copying

/-! ## Lookups -/

namespace Environment

/-- The variable is free in a pinned type. -/
def Pins (e : Environment) (a : Arena) (v : TyVar) : Prop :=
  ∃ s ∈ e.scopes, ∃ t ∈ s.pinned, ∃ w ∈ (a.expose t).vars, w.id = v.id

/-- The variable is free in a candidate of the symbol. -/
def Mentions (e : Environment) (a : Arena) (l : Locator) (v : TyVar) : Prop :=
  ∃ t ∈ e.candidates l, v ∈ (a.expose t).vars

/-- **The symbol's type is an instance of its candidates under the renaming**: they are exposed and renamed. Variables
    that are free in them and in no pinned type become variables that are handed out by this lookup, all others stay
    what they are, and no two of those that were handed out before become the same. No binding changes. -/
structure Instantiates (e : Environment) (a : Arena) (l : Locator) (σ : TyVar → TyVar) : Prop where
  type : (e.typeOf a l).1 = union? ((e.candidates l).map fun t => (a.expose t).rename σ)
  fresh : ∀ v, e.Mentions a l v → ¬e.Pins a v →
    a.size ≤ (σ v).id ∧ (e.typeOf a l).2.name? (σ v).id = some (σ v).name
  kept : ∀ v, ¬(e.Mentions a l v ∧ ¬e.Pins a v) → σ v = v
  injective : Set.InjOn σ {v | a.name? v.id = some v.name}
  same : ∀ id, (e.typeOf a l).2.binding? id = a.binding? id
  grows : a.Extends (e.typeOf a l).2

theorem mem_pinnedIds_iff {e : Environment} {a : Arena} : v.id ∈ e.pinnedIds a ↔ e.Pins a v := by
  refine ⟨mem_pinnedIds, ?_⟩
  rintro ⟨s, hs, t, ht, w, hw, hid⟩
  refine mem_eraseDups.mpr (mem_flatMap.mpr ⟨t, ?_, mem_map.mpr ⟨w, mem_eraseDups.mpr hw, hid⟩⟩)
  exact mem_flatten.mpr ⟨_, mem_map_of_mem (mem_reverse.mpr hs), mem_reverse.mpr ht⟩

end Environment

section Lookup

variable {e : Environment} {a : Arena} {l : Locator} (ha : a.WellFormed) (hl : ∀ t ∈ e.candidates l, a.Owns t)
include ha hl

/-- **Every lookup of a symbol with owned candidates is an instance of them.** -/
theorem exists_instantiates : ∃ σ, e.Instantiates a l σ := by
  obtain ⟨hgrows, hsame⟩ := typeOf_same e a l
  rcases typeOf_cases e a l with ⟨hnil, htype⟩ | ⟨copies, c, hrun, htype⟩
  · have hnone : ∀ v, ¬e.Mentions a l v := by
      rintro v ⟨t, ht, -⟩
      rw [hnil] at ht
      cases ht
    refine ⟨id, ?_, fun v hv => absurd hv (hnone v), fun _ _ => rfl, fun _ _ _ _ h => h, hsame, hgrows⟩
    rw [htype, hnil]
    rfl
  have hfresh : ∀ v, e.Mentions a l v → ¬e.Pins a v → a.size ≤ (c.counterpart (e.pinnedIds a) v).id ∧
      c.arena.name? (c.counterpart (e.pinnedIds a) v).id = some (c.counterpart (e.pinnedIds a) v).name := by
    rintro v ⟨t, ht, hv⟩ hpins
    exact Copying.counterpart_fresh ha hl hrun ht hv (mt Environment.mem_pinnedIds_iff.mp hpins)
  -- the counterparts, on the variables of the candidates
  classical
  let σ : TyVar → TyVar := fun v => if e.Mentions a l v then c.counterpart (e.pinnedIds a) v else v
  have hmentioned : ∀ v, e.Mentions a l v → σ v = c.counterpart (e.pinnedIds a) v := fun v hv => if_pos hv
  have hkept : ∀ v, ¬(e.Mentions a l v ∧ ¬e.Pins a v) → σ v = v := by
    intro v hv
    by_cases hm : e.Mentions a l v
    · have hpins : e.Pins a v := not_not.mp fun hp => hv ⟨hm, hp⟩
      rw [hmentioned v hm, Copying.counterpart, if_pos (Environment.mem_pinnedIds_iff.mpr hpins)]
    · exact if_neg hm
  refine ⟨σ, ?_, ?_, hkept, ?_, hsame, hgrows⟩
  · rw [htype, ← (Copying.copies_eq ha hrun).2, map_map]
    refine congrArg union? (map_congr_left fun t ht => ?_)
    refine (Copying.expose_copy ha hl hrun ht).trans (subst_congr fun v hv => ?_)
    rw [hmentioned v ⟨t, ht, hv⟩]
  · intro v hv hpins
    rw [htype, hmentioned v hv]
    exact hfresh v hv hpins
  · intro v hv w hw heq
    by_cases hgv : e.Mentions a l v ∧ ¬e.Pins a v <;> by_cases hgw : e.Mentions a l w ∧ ¬e.Pins a w
    · rw [hmentioned v hgv.1, hmentioned w hgw.1] at heq
      exact Copying.counterpart_injOn ha hl hrun hgv.1 hgw.1 heq
    · have hge := (hfresh v hgv.1 hgv.2).1
      rw [← hmentioned v hgv.1, heq, hkept w hgw] at hge
      exact absurd (lt_size_of_name? hw) (Nat.not_lt.mpr hge)
    · have hge := (hfresh w hgw.1 hgw.2).1
      rw [← hmentioned w hgw.1, ← heq, hkept v hgv] at hge
      exact absurd (lt_size_of_name? hv) (Nat.not_lt.mpr hge)
    · rwa [hkept v hgv, hkept w hgw] at heq

end Lookup

namespace Environment.Instantiates

variable {e : Environment} {a : Arena} {l : Locator} {σ τ : TyVar → TyVar}

/-- A variable of the symbol's type is that of a candidate, renamed. -/
theorem mem_vars (h : e.Instantiates a l σ) (ht : (e.typeOf a l).1 = some t) {w : TyVar} (hw : w ∈ t.vars) :
    ∃ v, e.Mentions a l v ∧ w = σ v := by
  obtain ⟨u, hu, hw⟩ := (mem_vars_union? (h.type.symm.trans ht)).mp hw
  obtain ⟨t, ht, rfl⟩ := mem_map.mp hu
  obtain ⟨v, hv, rfl⟩ := mem_vars_rename.mp hw
  exact ⟨v, ⟨t, ht, hv⟩, rfl⟩

theorem wellFormed (h : e.Instantiates a l σ) (ha : a.WellFormed) : (e.typeOf a l).2.WellFormed := by
  refine ⟨fun id t ht => ?_, ha.acyclic.congr h.same⟩
  rw [h.same] at ht
  exact (ha.owned id t ht).mono h.grows

/-- After a lookup everything is seen as before. -/
theorem expose_eq (h : e.Instantiates a l σ) (ha : a.WellFormed) (t : Ty) : (e.typeOf a l).2.expose t = a.expose t :=
  expose_congr (S := fun _ => True) ha.acyclic (ha.acyclic.congr h.same) (fun id _ => h.same id)
    (fun _ _ _ _ => trivial) fun _ _ => trivial

/-- **Solid candidates are renamed plainly**: nothing but their variables changes. -/
theorem rename_eq (h : e.Instantiates a l σ) (ha : a.WellFormed) (hsolid : a.Solid) (howned : a.Owns t) (ht : t.Solid) :
    (a.expose t).rename σ = (a.expose t).relabel σ := by
  refine rename_eq_relabel h.injective (ha.owns_expose howned) ?_
  have htwice := expose_expose (.refl a) hsolid hsolid ha.acyclic ht
  rw [expose_unfold ha.acyclic (a.expose t)] at htwice
  refine Eq.trans (subst_congr fun v hv => ?_) htwice
  exact (value_unbound (unbound_of_mem_expose ha.acyclic hv)).symm

variable (h : e.Instantiates a l σ) (ha : a.WellFormed)
include h ha

theorem mentions_iff : e.Mentions (e.typeOf a l).2 l v ↔ e.Mentions a l v := by
  simp [Mentions, h.expose_eq ha]

theorem pins_iff : e.Pins (e.typeOf a l).2 v ↔ e.Pins a v := by
  simp [Pins, h.expose_eq ha]

variable (hl : ∀ t ∈ e.candidates l, a.Owns t) (h' : e.Instantiates (e.typeOf a l).2 l τ)
include hl h'

/-- **The second of two lookups is the first one, renamed.** -/
theorem renamed : ∃ π, (e.typeOf (e.typeOf a l).2 l).1 = (e.typeOf a l).1.map (relabel π) ∧
    ∀ t, (e.typeOf a l).1 = some t → Set.InjOn π {v | v ∈ t.vars} := by
  have hσ : Set.InjOn σ {v | e.Mentions a l v} := fun v hv w hw heq =>
    h.injective (hv.elim fun t ht => ha.owns_expose (hl t ht.1) v ht.2)
      (hw.elim fun t ht => ha.owns_expose (hl t ht.1) w ht.2) heq
  have hτ : Set.InjOn τ {v | e.Mentions a l v} := fun v hv w hw heq => by
    have howned : ∀ x, e.Mentions a l x → (e.typeOf a l).2.name? x.id = some x.name := by
      rintro x ⟨t, ht, hx⟩
      exact (ha.owns_expose (hl t ht)).mono h.grows x hx
    exact h'.injective (howned v hv) (howned w hw) heq
  -- back to the candidate's variable, and on to its other name
  have : Nonempty TyVar := ⟨⟨0, ""⟩⟩
  let π : TyVar → TyVar := fun w => τ (Function.invFunOn σ {v | e.Mentions a l v} w)
  have hπ : ∀ v, e.Mentions a l v → π (σ v) = τ v :=
    fun v hv => congrArg τ (hσ.leftInvOn_invFunOn hv)
  have hinj : Set.InjOn π (σ '' {v | e.Mentions a l v}) := by
    rintro _ ⟨v, hv, rfl⟩ _ ⟨w, hw, rfl⟩ heq
    rw [hπ v hv, hπ w hw] at heq
    rw [hτ hv hw heq]
  refine ⟨π, ?_, fun t ht => hinj.mono fun w hw => ?_⟩
  · have hmember : ∀ t ∈ e.candidates l, (a.expose t).rename τ = ((a.expose t).rename σ).relabel π := by
      intro t ht
      rw [rename, rename, relabel_subst hinj fun v hv w hw => by
        rw [mem_singleton.mp hw]
        exact ⟨v, ⟨t, ht, hv⟩, rfl⟩]
      exact subst_congr fun v hv => congrArg var (hπ v ⟨t, ht, hv⟩).symm
    have hvars : ∀ u ∈ (e.candidates l).map fun t => (a.expose t).rename σ, u.VarsIn (σ '' {v | e.Mentions a l v}) := by
      intro u hu w hw
      obtain ⟨t, ht, rfl⟩ := mem_map.mp hu
      obtain ⟨v, hv, rfl⟩ := mem_vars_rename.mp hw
      exact ⟨v, ⟨t, ht, hv⟩, rfl⟩
    rw [h'.type, h.type, ← union?_relabel hinj hvars, map_map]
    refine congrArg union? (map_congr_left fun t ht => ?_)
    rw [h.expose_eq ha]
    exact hmember t ht
  · obtain ⟨v, hv, rfl⟩ := h.mem_vars ht hw
    exact ⟨v, hv, rfl⟩

/-- **Two lookups share pinned variables only.** -/
theorem shared {u : Ty} (ht : (e.typeOf a l).1 = some t) (hu : (e.typeOf (e.typeOf a l).2 l).1 = some u) {w : TyVar}
    (hwt : w ∈ t.vars) (hwu : w ∈ u.vars) : e.Pins a w := by
  obtain ⟨v, hv, hwv⟩ := h.mem_vars ht hwt
  obtain ⟨x, hx, hwx⟩ := h'.mem_vars hu hwu
  have hxold := (h.mentions_iff ha).mp hx
  obtain ⟨s, hs, hxs⟩ := id hxold
  have hlt := lt_size_of_name? (ha.owns_expose (hl s hs) x hxs)
  -- what the second lookup hands out is none of the first one's variables
  by_cases hpx : e.Pins a x
  · rw [hwx, h'.kept x fun hg => hg.2 ((h.pins_iff ha).mpr hpx)]
    exact hpx
  · have hnew := (h'.fresh x hx (mt (h.pins_iff ha).mp hpx)).1
    rw [← hwx, hwv] at hnew
    by_cases hpv : e.Pins a v
    · rw [hwv, h.kept v fun hg => hg.2 hpv]
      exact hpv
    · have hold := lt_size_of_name? (h.fresh v hv hpv).2
      exact absurd hold (Nat.not_lt.mpr hnew)

end Environment.Instantiates

/-- **Looking a symbol up instantiates exactly the generic variables.** Where the arena is well-formed and owns the
    candidates of a symbol, its type is the union of what they expose to under one renaming (a plain one, if no union
    is empty). The renaming sends the variables that are free in no pinned type to variables handed out by the lookup,
    keeps the others, and keeps all apart; no binding changes. So a second lookup gives the same type up to a renaming
    that keeps variables apart, and the two types share only variables that are free in a pinned type. -/
theorem lookup_instantiates {e : Environment} {a : Arena} {l : Locator} (ha : a.WellFormed)
    (hl : ∀ t ∈ e.candidates l, a.Owns t) :
    (∃ σ, e.Instantiates a l σ ∧
      (a.Solid → ∀ t ∈ e.candidates l, t.Solid → (a.expose t).rename σ = (a.expose t).relabel σ)) ∧
    (∃ π, (e.typeOf (e.typeOf a l).2 l).1 = (e.typeOf a l).1.map (Ty.relabel π) ∧
      ∀ t, (e.typeOf a l).1 = some t → Set.InjOn π {v | v ∈ t.vars}) ∧
    ∀ t u, (e.typeOf a l).1 = some t → (e.typeOf (e.typeOf a l).2 l).1 = some u →
      ∀ v ∈ t.vars, v ∈ u.vars → e.Pins a v := by
  obtain ⟨σ, hσ⟩ := exists_instantiates ha hl
  obtain ⟨τ, hτ⟩ := exists_instantiates (hσ.wellFormed ha) fun t ht => (hl t ht).mono hσ.grows
  refine ⟨⟨σ, hσ, fun hsolid t ht => hσ.rename_eq ha hsolid (hl t ht)⟩, hσ.renamed ha hl hτ, ?_⟩
  exact fun t u ht hu v hvt hvu => hσ.shared ha hl hτ ht hu hvt hvu

/-- A symbol has two candidates, one of them a variable that is bound to `t2 -> t3`, and `t3` is pinned. -/
theorem lookup_instantiates_overloaded :
    let c := ((Context.new "main" false).fresh.2.fresh.2.fresh.2.unify (.var ⟨4, "t4"⟩)
      (.func (.var ⟨2, "t2"⟩) (.var ⟨3, "t3"⟩))).2
    let a := c.store.arena
    let l := Locator.declaration "main" "f"
    let e : Environment := ⟨⟨[(l, [.var ⟨4, "t4"⟩, .func (.var ⟨2, "t2"⟩) .integer])], [.var ⟨3, "t3"⟩]⟩, []⟩
    (e.typeOf a l).1 = some (.union [.func (.var ⟨5, "t5"⟩) (.var ⟨3, "t3"⟩), .func (.var ⟨5, "t5"⟩) .integer]) ∧
      (e.typeOf (e.typeOf a l).2 l).1 =
        some (.union [.func (.var ⟨6, "t6"⟩) (.var ⟨3, "t3"⟩), .func (.var ⟨6, "t6"⟩) .integer]) ∧
      (∃ σ, e.Instantiates a l σ) ∧ e.Pins a ⟨3, "t3"⟩ := by
  intro c a l e
  have hreach : c.Reachable := .unify (.fresh (.fresh (.fresh (.new _ _)))) (by decide +kernel) (by decide +kernel)
  have hfirst : (e.typeOf a l).1 =
      some (.union [.func (.var ⟨5, "t5"⟩) (.var ⟨3, "t3"⟩), .func (.var ⟨5, "t5"⟩) .integer]) := by decide +kernel
  have hsecond : (e.typeOf (e.typeOf a l).2 l).1 =
      some (.union [.func (.var ⟨6, "t6"⟩) (.var ⟨3, "t3"⟩), .func (.var ⟨6, "t6"⟩) .integer]) := by decide +kernel
  have howned : ∀ t ∈ e.candidates l, a.Owns t := by decide +kernel
  obtain ⟨⟨σ, hσ, -⟩, -, hshared⟩ := lookup_instantiates hreach.wellFormed.arena howned
  exact ⟨hfirst, hsecond, ⟨σ, hσ⟩, hshared _ _ hfirst hsecond _ (by decide) (by decide)⟩

/-- **A variable that was not handed out yet is captured.** It is pinned, but the lookup hands it out as the new name
    of another variable, so that no renaming which keeps variables apart gives the symbol's type. -/
theorem stray_variable_is_captured :
    let a := (Context.new "main" false).store.arena
    let l := Locator.variable "x"
    let e : Environment := ⟨⟨[(l, [.func (.var ⟨0, "t0"⟩) (.var ⟨2, "t2"⟩)])], [.var ⟨2, "t2"⟩]⟩, []⟩
    a.WellFormed ∧ ¬∃ σ, (e.typeOf a l).1 = Ty.union? ((e.candidates l).map fun t => (a.expose t).rename σ) ∧
      Set.InjOn σ {v | e.Mentions a l v} := by
  intro a l e
  refine ⟨(Context.new_wellFormed "main" false).arena, ?_⟩
  rintro ⟨σ, htype, hinjective⟩
  have hlookup : (e.typeOf a l).1 = some (.func (.var ⟨2, "t2"⟩) (.var ⟨2, "t2"⟩)) := by decide +kernel
  have hexpose : a.expose (.func (.var ⟨0, "t0"⟩) (.var ⟨2, "t2"⟩)) = .func (.var ⟨0, "t0"⟩) (.var ⟨2, "t2"⟩) := by
    decide +kernel
  have hcandidates : e.candidates l = [.func (.var ⟨0, "t0"⟩) (.var ⟨2, "t2"⟩)] := by decide +kernel
  have hmentions : ∀ v ∈ (Ty.func (.var ⟨0, "t0"⟩) (.var ⟨2, "t2"⟩)).vars, e.Mentions a l v := by
    intro v hv
    refine ⟨_, hcandidates ▸ List.mem_cons_self, ?_⟩
    rwa [hexpose]
  have hrenamed : Ty.union? ((e.candidates l).map fun t => (a.expose t).rename σ) =
      some (.func (.var (σ ⟨0, "t0"⟩)) (.var (σ ⟨2, "t2"⟩))) := by
    rw [hcandidates, List.map_singleton, hexpose]
    rfl
  rw [hlookup, hrenamed] at htype
  simp only [Option.some.injEq, Ty.func.injEq, Ty.var.injEq] at htype
  have hsame := hinjective (hmentions ⟨0, "t0"⟩ (by decide)) (hmentions ⟨2, "t2"⟩ (by decide))
    (htype.1.symm.trans htype.2)
  cases hsame

end UnionTyping
