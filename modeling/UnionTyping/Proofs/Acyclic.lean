import UnionTyping.Proofs.Fragment
import UnionTyping.Proofs.Growth
import Mathlib.Data.List.Perm.Subperm
import Mathlib.Logic.Relation

/-!
# `Proofs.Acyclic` — bindings without cycles, and exposure through them

Bindings make a graph: an edge leads from a bound variable to every variable of its binding. Everything
that looks through bindings (`follow`, `expose`, `weight`) counts hops down from the number of variables.
Where the graph has no cycle this bound is never met: a path visits every variable at most once
(`Acyclic.within`, by the pigeonhole principle). The counters can then be forgotten, and each of these
functions satisfies the plain recursion it stands for (`expose_unfold`, `follow_bound`; for `weight` see
`Proofs.Termination`).

One binding keeps the graph without cycles if the variable cannot be reached from the type it is bound to
(`Acyclic.bind`).
-/

namespace UnionTyping

open List

namespace Arena

open Relation

/-! ## The graph of bindings -/

variable {t : Ty} {n : Nat}

/-- From a bound variable to a variable of its binding. -/
def Edge (a : Arena) (i j : Nat) : Prop :=
  ∃ t, a.binding? i = some t ∧ ∃ w ∈ t.vars, w.id = j

/-- No variable leads back to itself. -/
def Acyclic (a : Arena) : Prop :=
  ∀ i, ¬TransGen a.Edge i i

/-- A variable occurs in a type when bindings are looked through. -/
def Reaches (a : Arena) (t : Ty) (j : Nat) : Prop :=
  ∃ w ∈ t.vars, ReflTransGen a.Edge w.id j

/-- Every path from the type through bindings has at most so many hops. -/
def Within (a : Arena) : Nat → Ty → Prop
  | 0, t => ∀ v ∈ t.vars, a.binding? v.id = none
  | n + 1, t => ∀ v ∈ t.vars, ∀ b, a.binding? v.id = some b → Within a n b

variable {a b : Arena}

theorem Edge.congr (h : ∀ id, b.binding? id = a.binding? id) : b.Edge = a.Edge := by
  funext i j
  simp [Edge, h]

/-- Only the bindings matter for cycles. -/
theorem Acyclic.congr (h : ∀ id, b.binding? id = a.binding? id) (ha : a.Acyclic) : b.Acyclic := by
  unfold Acyclic
  rw [Edge.congr h]
  exact ha

/-- What has no cycle had none before. -/
theorem Acyclic.of_extends (h : a.Extends b) (hb : b.Acyclic) : a.Acyclic := by
  refine fun i hi => hb i (TransGen.mono ?_ i i hi)
  rintro j k ⟨t, ht, hw⟩
  exact ⟨t, h.binding? ht, hw⟩

/-- Where bindings only lead to variables of smaller number there is no cycle. -/
theorem acyclic_of_decreasing (h : ∀ id t, a.binding? id = some t → ∀ v ∈ t.vars, v.id < id) : a.Acyclic := by
  have hlt : ∀ i j, TransGen a.Edge i j → j < i := by
    intro i j hij
    induction hij with
    | single he =>
      obtain ⟨t, ht, w, hw, rfl⟩ := he
      exact h _ t ht w hw
    | tail _ he ih =>
      obtain ⟨t, ht, w, hw, rfl⟩ := he
      exact Nat.lt_trans (h _ t ht w hw) ih
  exact fun i hi => Nat.lt_irrefl i (hlt i i hi)

/-! ## Paths are short -/

variable {v : TyVar} {visited : List Nat}

/-- The variables that a path through bindings has met before it comes to a type. -/
structure Path (a : Arena) (visited : List Nat) (t : Ty) : Prop where
  nodup : visited.Nodup
  lt_size : ∀ x ∈ visited, x < a.size
  leads : ∀ x ∈ visited, ∀ v ∈ t.vars, TransGen a.Edge x v.id

/-- Without cycles, the next bound variable on a path is a new one. -/
theorem Path.cons (ha : a.Acyclic) {u : Ty} (h : a.Path visited t) (hv : v ∈ t.vars)
    (hu : a.binding? v.id = some u) : a.Path (v.id :: visited) u := by
  refine ⟨nodup_cons.mpr ⟨fun hmem => ha _ (h.leads _ hmem v hv), h.nodup⟩, ?_, ?_⟩
  · intro x hx
    rcases mem_cons.mp hx with rfl | hx
    · exact lt_size_of_binding? hu
    · exact h.lt_size x hx
  · intro x hx w hw
    have hedge : a.Edge v.id w.id := ⟨u, hu, w, hw, rfl⟩
    rcases mem_cons.mp hx with rfl | hx
    · exact TransGen.single hedge
    · exact TransGen.tail (h.leads x hx v hv) hedge

theorem Path.length_le (h : a.Path visited t) : visited.length ≤ a.size := by
  have hsub : visited ⊆ List.range a.size := fun x hx => mem_range.mpr (h.lt_size x hx)
  have hlen := (subperm_of_subset h.nodup hsub).length_le
  rwa [length_range] at hlen

/-- A path that has met some variables has at most as many hops left as there are others. -/
theorem Path.within (ha : a.Acyclic) {k : Nat} (h : a.Path visited t) (hk : a.size ≤ visited.length + k) :
    a.Within k t := by
  induction k generalizing visited t with
  | zero =>
    intro v hv
    cases hu : a.binding? v.id with
    | none => rfl
    | some u =>
      have hlen := (h.cons ha hv hu).length_le
      rw [length_cons] at hlen
      omega
  | succ k ih =>
    intro v hv u hu
    exact ih (h.cons ha hv hu) (by rw [length_cons]; omega)

/-- **Without cycles no path is longer than the number of variables.** -/
theorem Acyclic.within (ha : a.Acyclic) (t : Ty) : a.Within a.size t :=
  Path.within ha ⟨nodup_nil, by simp, by simp⟩ (Nat.le_add_left _ _)

/-! ## Adding a binding -/

/-- Everything that can be reached is reached in finitely many hops. -/
theorem Within.acc (h : a.Within n t) : ∀ v ∈ t.vars, Acc (fun j i => a.Edge i j) v.id := by
  induction n generalizing t with
  | zero =>
    refine fun v hv => Acc.intro _ fun j ⟨u, hu, _⟩ => ?_
    rw [h v hv] at hu
    cases hu
  | succ n ih =>
    refine fun v hv => Acc.intro _ fun j ⟨u, hu, w, hw, hj⟩ => ?_
    exact hj ▸ ih (h v hv u hu) w hw

theorem Acyclic.acc (ha : a.Acyclic) (i : Nat) : Acc (fun j i => a.Edge i j) i :=
  (ha.within (.var ⟨i, ""⟩)).acc ⟨i, ""⟩ (by simp)

/-- **Following bindings ends**, from wherever it starts. -/
theorem Acyclic.wellFounded (ha : a.Acyclic) : WellFounded fun j i => a.Edge i j :=
  ⟨ha.acc⟩

/-- **Induction along bindings**: from the variables of its binding to a bound variable. -/
@[elab_as_elim]
theorem Acyclic.induction (ha : a.Acyclic) {motive : TyVar → Prop} (unbound : ∀ v, a.binding? v.id = none → motive v)
    (bound : ∀ v t, a.binding? v.id = some t → (∀ w ∈ t.vars, motive w) → motive v)
    (v : TyVar) : motive v := by
  generalize hi : v.id = i
  induction ha.acc i generalizing v with
  | intro i _ ih =>
    subst hi
    cases ht : a.binding? v.id with
    | none => exact unbound v ht
    | some t => exact bound v t ht fun w hw => ih w.id ⟨t, ht, w, hw, rfl⟩ w rfl

theorem acyclic_of_acc (h : ∀ i, Acc (fun j i => a.Edge i j) i) : a.Acyclic := by
  intro i
  induction h i with
  | intro i _ ih =>
    intro hcycle
    -- A cycle through `i` is one through the next variable on it.
    obtain ⟨j, hij, hji⟩ := TransGen.head'_iff.mp hcycle
    exact ih j hij (TransGen.tail' hji hij)

/-- **A binding keeps the graph without cycles** if the variable is not reached from its binding. -/
theorem Acyclic.bind (ha : a.Acyclic) {id : Nat} (hb : a.bind? id t = .ok b) (ht : ¬a.Reaches t id) : b.Acyclic := by
  have hedge : ∀ {i j}, i ≠ id → b.Edge i j → a.Edge i j := by
    rintro i j hi ⟨u, hu, hw⟩
    rw [binding?_bind hb, if_neg hi] at hu
    exact ⟨u, hu, hw⟩
  -- From where the variable is not reached, the new edges are not met.
  have hoff : ∀ i, ¬ReflTransGen a.Edge i id → Acc (fun j i => b.Edge i j) i := by
    intro i
    induction ha.acc i with
    | intro i _ ih =>
      refine fun hi => Acc.intro _ fun j hij => ?_
      have haij : a.Edge i j := hedge (fun he => hi (he ▸ ReflTransGen.refl)) hij
      exact ih j haij fun hj => hi (ReflTransGen.head haij hj)
  have hid : Acc (fun j i => b.Edge i j) id := by
    refine Acc.intro _ fun j ⟨u, hu, w, hw, hj⟩ => ?_
    rw [binding?_bind hb, if_pos rfl, Option.some.injEq] at hu
    subst hu hj
    exact hoff _ fun hreach => ht ⟨w, hw, hreach⟩
  refine acyclic_of_acc fun i => ?_
  induction ha.acc i with
  | intro i _ ih =>
    by_cases hi : i = id
    · exact hi ▸ hid
    · exact Acc.intro _ fun j hij => ih j (hedge hi hij)

/-! ## Looking through bindings -/

/-- **More hops than there are on any path make no difference**, whatever is read of a type hop by hop: it has to be
    the same with and without hops where no variable is bound, and otherwise to depend on what is read of bindings
    with one hop less. -/
theorem Within.stable {β : Type} {read : Nat → Ty → β} {m : Nat}
    (hunbound : ∀ m t, (∀ v ∈ t.vars, a.binding? v.id = none) → read (m + 1) t = read 0 t)
    (hbound : ∀ m n t, (∀ v ∈ t.vars, ∀ u, a.binding? v.id = some u → read m u = read n u) →
      read (m + 1) t = read (n + 1) t)
    (h : a.Within n t) (hnm : n ≤ m) : read m t = read n t := by
  induction n generalizing m t with
  | zero =>
    cases m with
    | zero => rfl
    | succ m => exact hunbound m t h
  | succ n ih =>
    obtain ⟨m, rfl⟩ : ∃ k, m = k + 1 := ⟨m - 1, by omega⟩
    exact hbound m n t fun v hv u hu => ih (h v hv u hu) (by omega)

theorem exposeWithin_of_within {m : Nat} (h : a.Within n t) (hnm : n ≤ m) :
    a.exposeWithin m t = a.exposeWithin n t := by
  refine h.stable (fun m t ht => ?_) (fun m n t ht => ?_) hnm
  · exact Ty.subst_congr fun v hv => by rw [ht v hv]
  · refine Ty.subst_congr fun v hv => ?_
    cases hu : a.binding? v.id with
    | none => rfl
    | some u => exact ht v hv u hu

/-- The exposed value of a variable. -/
def value (a : Arena) (v : TyVar) : Ty :=
  match a.binding? v.id with
  | some u => a.expose u
  | none => .var v

/-- **The recursion that `expose` stands for**: variables are replaced by their exposed values. -/
theorem expose_unfold (ha : a.Acyclic) (t : Ty) : a.expose t = t.subst a.value :=
  (exposeWithin_of_within (ha.within t) (Nat.le_succ _)).symm

theorem expose_var (ha : a.Acyclic) (v : TyVar) : a.expose (.var v) = a.value v := by
  rw [expose_unfold ha, Ty.subst]

theorem value_bound (h : a.binding? v.id = some t) : a.value v = a.expose t := by
  rw [value, h]

theorem value_unbound (h : a.binding? v.id = none) : a.value v = .var v := by
  rw [value, h]

/-- An unbound variable stands for itself. -/
theorem expose_unbound (h : a.binding? v.id = none) : a.expose (.var v) = .var v := by
  unfold expose
  cases a.size with
  | zero => rfl
  | succ n => simp [exposeWithin, Ty.subst, h]

/-- **No bound variable is left in an exposed type.** -/
theorem unbound_of_mem_expose (ha : a.Acyclic) {w : TyVar} (hw : w ∈ (a.expose t).vars) : a.binding? w.id = none := by
  have hvalue : ∀ v : TyVar, ∀ w ∈ (a.value v).vars, a.binding? w.id = none := by
    intro v
    induction v using ha.induction with
    | unbound v hv =>
      intro w hw
      rw [value_unbound hv] at hw
      rw [mem_singleton.mp hw]
      exact hv
    | bound v u hu ih =>
      intro w hw
      rw [value_bound hu, expose_unfold ha] at hw
      obtain ⟨x, hx, hw⟩ := Ty.mem_vars_subst.mp hw
      exact ih x hx w hw
  rw [expose_unfold ha] at hw
  obtain ⟨v, _, hw⟩ := Ty.mem_vars_subst.mp hw
  exact hvalue v w hw

/-- An unbound variable that is reached shows in the exposed type. -/
theorem mem_expose_of_reaches (ha : a.Acyclic) {j : Nat} (h : a.Reaches t j) (hj : a.binding? j = none) :
    ∃ w ∈ (a.expose t).vars, w.id = j := by
  have hvalue : ∀ i, ReflTransGen a.Edge i j → ∀ v : TyVar, v.id = i → ∃ w ∈ (a.value v).vars, w.id = j := by
    intro i hi
    induction hi using ReflTransGen.head_induction_on with
    | refl =>
      rintro v rfl
      rw [value_unbound hj]
      exact ⟨v, by simp, rfl⟩
    | head hedge _ ih =>
      rintro v rfl
      obtain ⟨u, hu, x, hx, hk⟩ := hedge
      obtain ⟨w, hw, hwj⟩ := ih x hk
      rw [value_bound hu, expose_unfold ha]
      exact ⟨w, Ty.mem_vars_subst.mpr ⟨x, hx, hw⟩, hwj⟩
  obtain ⟨v, hv, hreach⟩ := h
  obtain ⟨w, hw, hwj⟩ := hvalue _ hreach v rfl
  rw [expose_unfold ha]
  exact ⟨w, Ty.mem_vars_subst.mpr ⟨v, hv, hw⟩, hwj⟩

/-- Arenas that agree on all that a type can reach expose it alike. -/
theorem expose_congr (ha : a.Acyclic) (hb : b.Acyclic) {S : Nat → Prop}
    (hsame : ∀ i, S i → b.binding? i = a.binding? i) (hclosed : ∀ i j, S i → a.Edge i j → S j)
    (ht : ∀ v ∈ t.vars, S v.id) : b.expose t = a.expose t := by
  have hvalue : ∀ v : TyVar, S v.id → b.value v = a.value v := by
    intro v
    induction v using ha.induction with
    | unbound v hv =>
      intro hS
      rw [value_unbound hv, value_unbound (by rw [hsame _ hS, hv])]
    | bound v u hu ih =>
      intro hS
      rw [value_bound hu, value_bound (by rw [hsame _ hS, hu]), expose_unfold ha, expose_unfold hb]
      exact Ty.subst_congr fun w hw => ih w hw (hclosed _ _ hS ⟨u, hu, w, hw, rfl⟩)
  rw [expose_unfold ha, expose_unfold hb]
  exact Ty.subst_congr fun v hv => hvalue v (ht v hv)

/-! ### Following at the top -/

theorem followWithin_of_ne_var (h : ∀ v, t ≠ .var v) : a.followWithin n t = t := by
  cases n with
  | zero => rfl
  | succ n =>
    cases t with
    | var v => exact absurd rfl (h v)
    | _ => rfl

theorem follow_of_ne_var (h : ∀ v, t ≠ .var v) : a.follow t = t :=
  followWithin_of_ne_var h

theorem followWithin_unbound (h : a.binding? v.id = none) : a.followWithin n (.var v) = .var v := by
  cases n with
  | zero => rfl
  | succ n => simp [followWithin, h]

theorem follow_unbound (h : a.binding? v.id = none) : a.follow (.var v) = .var v :=
  followWithin_unbound h

theorem followWithin_of_within {m : Nat} (h : a.Within n t) (hnm : n ≤ m) :
    a.followWithin m t = a.followWithin n t := by
  induction n generalizing m t with
  | zero =>
    cases t with
    | var v => exact followWithin_unbound (h v (by simp))
    | _ => exact followWithin_of_ne_var (by simp)
  | succ n ih =>
    obtain ⟨m, rfl⟩ : ∃ k, m = k + 1 := ⟨m - 1, by omega⟩
    cases t with
    | var v =>
      cases hu : a.binding? v.id with
      | none => rw [followWithin_unbound hu, followWithin_unbound hu]
      | some u =>
        simp only [followWithin, hu]
        exact ih (h v (by simp) u hu) (by omega)
    | _ => rfl

theorem follow_bound (ha : a.Acyclic) (h : a.binding? v.id = some t) : a.follow (.var v) = a.follow t := by
  have hmore := followWithin_of_within (ha.within (.var v)) (Nat.le_succ _)
  rw [follow, ← hmore, followWithin, h]
  rfl

/-- What is found at the top is no bound variable. -/
theorem unbound_of_follow (ha : a.Acyclic) {w : TyVar} (h : a.follow t = .var w) : a.binding? w.id = none := by
  have hvar : ∀ v w : TyVar, a.follow (.var v) = .var w → a.binding? w.id = none := by
    intro v
    induction v using ha.induction with
    | unbound v hv =>
      intro w h
      rw [follow_unbound hv] at h
      injection h with h
      exact h ▸ hv
    | bound v u hu ih =>
      intro w h
      rw [follow_bound ha hu] at h
      cases u with
      | var x => exact ih x (by simp) w h
      | _ => rw [follow_of_ne_var (by simp)] at h; cases h
  cases t with
  | var v => exact hvar v w h
  | _ => rw [follow_of_ne_var (by simp)] at h; cases h

/-- Following at the top does not change the exposed form. -/
@[simp] theorem expose_follow (ha : a.Acyclic) (t : Ty) : a.expose (a.follow t) = a.expose t := by
  have hvar : ∀ v : TyVar, a.expose (a.follow (.var v)) = a.expose (.var v) := by
    intro v
    induction v using ha.induction with
    | unbound v hv => rw [follow_unbound hv]
    | bound v u hu ih =>
        rw [follow_bound ha hu, expose_var ha v, value_bound hu]
        cases u with
        | var x => exact ih x (by simp)
        | _ => rw [follow_of_ne_var (by simp)]
  cases t with
  | var v => exact hvar v
  | _ => rw [follow_of_ne_var (by simp)]

end Arena
end UnionTyping
