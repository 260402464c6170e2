import UnionTyping.Solve.Store
import Mathlib.Data.List.Nodup

/-!
# `Proofs.Growth` — how an arena grows, and how it is taken back

The solver changes an arena in three ways: it hands out a variable, it binds an unbound one, and it undoes
what was bound since a snapshot. `Arena.Extends a b` says what remains of `a` in `b` after any number of
the first two: names and bindings are kept, and the trail of `b` lists exactly the variables that `b` binds
and `a` does not, above the trail of `a`. That the initial trail is right is nowhere assumed.

From this alone follows that undoing is exact (`binding?_rollback`), and that where no variable was handed
out the very same arena comes back (`rollback_eq`).
-/

namespace UnionTyping

open List

namespace Arena

/-! ## Cells -/

variable {id : Nat} {a b : Arena} {t : Ty}

/-- Arenas are equal if they have the same variables, bindings and trail. -/
theorem ext_of_lookups (hsize : a.size = b.size) (hname : ∀ id, a.name? id = b.name? id)
    (hbinding : ∀ id, a.binding? id = b.binding? id) (htrail : a.trail = b.trail) : a = b := by
  obtain ⟨cells, trail⟩ := a
  obtain ⟨cells', trail'⟩ := b
  simp only [mk.injEq]
  refine ⟨Array.ext hsize fun i hi hi' => ?_, htrail⟩
  have hn := hname i
  have hb := hbinding i
  simp only [name?, binding?, Array.getElem?_eq_getElem hi, Array.getElem?_eq_getElem hi',
    Option.map_some, Option.bind_some, Option.some.injEq] at hn hb
  cases hc : cells[i]
  cases hc' : cells'[i]
  rw [hc, hc'] at hn hb
  exact Cell.mk.injEq .. ▸ ⟨hn, hb⟩

theorem lt_size_of_name? {n : String} (h : a.name? id = some n) : id < a.size := by
  obtain ⟨c, hc, _⟩ := Option.map_eq_some_iff.mp h
  exact (Array.getElem?_eq_some_iff.mp hc).1

theorem lt_size_of_binding? (h : a.binding? id = some t) : id < a.size := by
  obtain ⟨c, hc, _⟩ := Option.bind_eq_some_iff.mp h
  exact (Array.getElem?_eq_some_iff.mp hc).1

theorem name?_of_lt (h : id < a.size) : ∃ n, a.name? id = some n :=
  ⟨a.cells[id].name, by rw [name?, Array.getElem?_eq_getElem h]; rfl⟩

theorem name?_eq_none (h : a.size ≤ id) : a.name? id = none := by
  rw [name?, Array.getElem?_eq_none h]
  rfl

theorem binding?_eq_none (h : a.size ≤ id) : a.binding? id = none := by
  rw [binding?, Array.getElem?_eq_none h]
  rfl

/-! ## One binding -/

section Bind

theorem unbound_of_bind (h : a.bind? id t = .ok b) : a.binding? id = none := by
  unfold bind? at h
  split at h
  · cases h
  · cases h
  · rename_i hcell
    rw [binding?, hcell]
    rfl

theorem size_bind (h : a.bind? id t = .ok b) : b.size = a.size := by
  unfold bind? at h
  split at h
  · cases h
  · cases h
  · cases h
    exact Array.size_modify

theorem name?_bind (h : a.bind? id t = .ok b) (other : Nat) : b.name? other = a.name? other := by
  unfold bind? at h
  split at h
  · cases h
  · cases h
  · cases h
    simp only [name?, Array.getElem?_modify]
    by_cases e : id = other
    · simp [e, Function.comp_def]
    · simp [e]

/-- **Binding succeeds** exactly where there is an unbound variable. -/
theorem bind_of_unbound (t : Ty) (hlt : id < a.size) (hfree : a.binding? id = none) : ∃ b, a.bind? id t = .ok b := by
  unfold bind?
  have hcell : a.cells[id]? = some a.cells[id] := Array.getElem?_eq_getElem hlt
  rw [binding?, hcell] at hfree
  rw [hcell]
  cases hc : a.cells[id] with
  | mk name binding =>
    rw [hc] at hfree
    cases binding with
    | none => exact ⟨_, rfl⟩
    | some u => cases hfree

end Bind

theorem name?_freshNamed (a : Arena) (name : String) (h : id < a.size) :
    (a.freshNamed name).2.name? id = a.name? id := by
  have hne : id ≠ a.cells.size := Nat.ne_of_lt h
  simp only [freshNamed, name?, Array.getElem?_push, if_neg hne]

theorem name?_fresh (a : Arena) (h : id < a.size) : a.fresh.2.name? id = a.name? id :=
  a.name?_freshNamed _ h

theorem name?_fresh_self (a : Arena) : a.fresh.2.name? a.fresh.1.id = some a.fresh.1.name := by
  simp [fresh, freshNamed, name?, size]

/-! ## Growth -/

/-- **How an arena grows.** `b` has all variables and bindings of `a`; what it binds besides stands on its
    trail, each variable once, above the trail of `a`. -/
structure Extends (a b : Arena) : Prop where
  size_le : a.size ≤ b.size
  name? : ∀ id < a.size, b.name? id = a.name? id
  grown : ∃ new, b.trail = new ++ a.trail ∧ new.Nodup ∧
    (∀ id ∈ new, a.binding? id = none ∧ (b.binding? id).isSome) ∧
    ∀ id ∉ new, b.binding? id = a.binding? id

namespace Extends

theorem refl (a : Arena) : a.Extends a :=
  ⟨Nat.le_refl _, fun _ _ => rfl, [], rfl, nodup_nil, by simp, fun _ _ => rfl⟩

/-- Existing bindings are kept. -/
theorem binding? (h : a.Extends b) (ht : a.binding? id = some t) : b.binding? id = some t := by
  obtain ⟨new, _, _, hnew, hold⟩ := h.grown
  have hid : id ∉ new := by
    intro hid
    rw [(hnew id hid).1] at ht
    cases ht
  rw [hold id hid, ht]

/-- What is unbound later was unbound before. -/
theorem unbound (h : a.Extends b) (hb : b.binding? id = none) : a.binding? id = none := by
  cases ha : a.binding? id with
  | none => rfl
  | some t => rw [h.binding? ha] at hb; cases hb

theorem trans {c : Arena} (hab : a.Extends b) (hbc : b.Extends c) : a.Extends c := by
  refine ⟨Nat.le_trans hab.size_le hbc.size_le, fun id hid => ?_, ?_⟩
  · rw [hbc.name? id (Nat.lt_of_lt_of_le hid hab.size_le), hab.name? id hid]
  · obtain ⟨new, htrail, hnodup, hnew, hold⟩ := hab.grown
    obtain ⟨new', htrail', hnodup', hnew', hold'⟩ := hbc.grown
    refine ⟨new' ++ new, by rw [htrail', htrail, append_assoc], ?_, ?_, ?_⟩
    · refine nodup_append.mpr ⟨hnodup', hnodup, fun x hx y hy he => ?_⟩
      have hfree := (hnew' x hx).1
      have hbound := (hnew y hy).2
      rw [← he, hfree] at hbound
      cases hbound
    · intro id hid
      rcases mem_append.mp hid with h | h
      · exact ⟨hab.unbound (hnew' id h).1, (hnew' id h).2⟩
      · refine ⟨(hnew id h).1, ?_⟩
        obtain ⟨t, ht⟩ := Option.isSome_iff_exists.mp (hnew id h).2
        rw [hbc.binding? ht]
        rfl
    · intro id hid
      rw [mem_append, not_or] at hid
      rw [hold' id hid.1, hold id hid.2]

theorem of_bind (h : a.bind? id t = .ok b) : a.Extends b := by
  refine ⟨Nat.le_of_eq (size_bind h).symm, fun other _ => name?_bind h other, [id], trail_bind h,
    nodup_singleton id, ?_, ?_⟩
  · intro other ho
    rw [mem_singleton.mp ho]
    exact ⟨unbound_of_bind h, by simp [binding?_bind h]⟩
  · intro other ho
    rw [binding?_bind h, if_neg fun he => ho (mem_singleton.mpr he)]

theorem of_freshNamed (a : Arena) (name : String) : a.Extends (a.freshNamed name).2 :=
  ⟨by simp, fun _ hid => a.name?_freshNamed name hid, [], rfl, nodup_nil, by simp,
    fun id _ => a.binding?_freshNamed name id⟩

theorem of_fresh (a : Arena) : a.Extends a.fresh.2 :=
  .of_freshNamed a _

theorem trail (h : a.Extends b) : a.trail <:+ b.trail := by
  obtain ⟨new, htrail, -⟩ := h.grown
  exact ⟨new, htrail.symm⟩

/-- What was bound since the snapshot is what the trail has gained. -/
theorem boundSince_eq {new : List Nat} (h : b.trail = new ++ a.trail) : b.boundSince a.snapshot = new.reverse := by
  rw [boundSince, snapshot, h, length_append, Nat.add_sub_cancel, take_left]

/-- The variables bound since the snapshot are those that were unbound then. -/
theorem mem_boundSince (h : a.Extends b) :
    id ∈ b.boundSince a.snapshot ↔ a.binding? id = none ∧ (b.binding? id).isSome := by
  obtain ⟨new, htrail, _, hnew, hold⟩ := h.grown
  rw [boundSince_eq htrail, mem_reverse]
  constructor
  · exact hnew id
  · rintro ⟨hfree, hbound⟩
    by_contra hid
    rw [hold id hid, hfree] at hbound
    cases hbound

theorem nodup_boundSince (h : a.Extends b) : (b.boundSince a.snapshot).Nodup := by
  obtain ⟨new, htrail, hnodup, -⟩ := h.grown
  rw [boundSince_eq htrail]
  exact nodup_reverse.mpr hnodup

/-- An arena whose trail did not become longer has the same bindings. -/
theorem eq_of_unchanged (h : a.Extends b) (hsize : b.size = a.size)
    (hun : b.unchangedSince a.snapshot = true) : b = a := by
  obtain ⟨new, htrail, _, _, hold⟩ := h.grown
  have hlen : b.trail.length = a.trail.length := beq_iff_eq.mp hun
  have hnil : new = [] := by
    rw [htrail, length_append] at hlen
    exact eq_nil_of_length_eq_zero (by omega)
  subst hnil
  refine ext_of_lookups hsize (fun id => ?_) (fun id => hold id not_mem_nil) htrail
  by_cases hid : id < a.size
  · exact h.name? id hid
  · rw [name?_eq_none (by omega), name?_eq_none (by omega)]

end Extends

/-! ## Undoing -/

theorem getElem?_foldl_unbind (ids : List Nat) (cells : Array Cell) (i : Nat) :
    (ids.foldl unbind cells)[i]? =
      cells[i]?.map fun c => if i ∈ ids then { c with binding := none } else c := by
  induction ids generalizing cells with
  | nil => simp
  | cons id ids ih =>
    rw [foldl_cons, ih, unbind, Array.getElem?_modify]
    by_cases e : id = i
    · subst e
      cases cells[id]? <;> simp
    · rw [if_neg e]
      simp [Ne.symm e]

@[simp] theorem size_rollback (a : Arena) (s : Snapshot) : (a.rollback s).size = a.size := by
  have hfold : ∀ (ids : List Nat) (cells : Array Cell), (ids.foldl unbind cells).size = cells.size := by
    intro ids
    induction ids with
    | nil => exact fun _ => rfl
    | cons id ids ih => exact fun cells => (ih _).trans Array.size_modify
  exact hfold _ _

@[simp] theorem name?_rollback (a : Arena) (s : Snapshot) (id : Nat) : (a.rollback s).name? id = a.name? id := by
  simp only [rollback, name?, getElem?_foldl_unbind, Option.map_map]
  congr 1
  funext c
  simp only [Function.comp_apply]
  split <;> rfl

/-- **Undoing is exact**: every variable is bound to what it was bound to at the snapshot, and those
    handed out since are unbound. -/
theorem binding?_rollback (h : a.Extends b) (id : Nat) : (b.rollback a.snapshot).binding? id = a.binding? id := by
  obtain ⟨new, htrail, _, hnew, hold⟩ := h.grown
  have htake : b.trail.take (b.trail.length - a.trail.length) = new := by
    rw [htrail, length_append, Nat.add_sub_cancel, take_left]
  simp only [rollback, snapshot, binding?, htake, getElem?_foldl_unbind]
  by_cases hid : id ∈ new
  · have hfree : (a.cells[id]?.bind fun c => c.binding) = none := (hnew id hid).1
    rw [hfree]
    cases b.cells[id]? <;> simp [hid]
  · have hsame : (b.cells[id]?.bind fun c => c.binding) = a.cells[id]?.bind fun c => c.binding :=
      hold id hid
    rw [← hsame]
    cases b.cells[id]? <;> simp [hid]

theorem trail_rollback (h : a.Extends b) : (b.rollback a.snapshot).trail = a.trail := by
  obtain ⟨new, htrail, _, _, _⟩ := h.grown
  simp only [rollback, snapshot]
  rw [htrail, length_append, Nat.add_sub_cancel, drop_left]

/-- Where no variable was handed out, undoing gives the very same arena. -/
theorem rollback_eq (h : a.Extends b) (hsize : b.size = a.size) : b.rollback a.snapshot = a := by
  refine ext_of_lookups (by rw [size_rollback, hsize]) (fun id => ?_) (binding?_rollback h) (trail_rollback h)
  rw [name?_rollback]
  by_cases hid : id < a.size
  · exact h.name? id hid
  · rw [name?_eq_none (by omega), name?_eq_none (by omega)]

/-- **What is cut back still extends all that lies below**, whichever of the two snapshots was taken first. -/
theorem Extends.rollback_below {c : Arena} (hb : b.Extends a) (hc : c.Extends a)
    (hle : c.trail.length ≤ b.trail.length) : c.Extends (a.rollback b.snapshot) := by
  obtain ⟨new, htrail, -, hnew, hold⟩ := hb.grown
  obtain ⟨new', htrail', hnodup, hnew', hold'⟩ := hc.grown
  obtain ⟨mid, hmid⟩ : c.trail <:+ b.trail := suffix_of_suffix_length_le hc.trail hb.trail hle
  obtain rfl : new' = new ++ mid := by
    rw [htrail, ← hmid, ← append_assoc] at htrail'
    exact (append_cancel_right htrail').symm
  obtain ⟨-, hmid_nodup, hdisjoint⟩ := nodup_append.mp hnodup
  refine ⟨by rw [size_rollback]; exact hc.size_le, fun id hid => by rw [name?_rollback, hc.name? id hid], mid, ?_,
    hmid_nodup, fun id hid => ?_, fun id hid => ?_⟩
  · rw [trail_rollback hb, hmid]
  · have hkept : id ∉ new := fun hmem => hdisjoint id hmem id hid rfl
    obtain ⟨hfree, hbound⟩ := hnew' id (mem_append_right new hid)
    exact ⟨hfree, by rw [binding?_rollback hb, ← hold id hkept]; exact hbound⟩
  · rw [binding?_rollback hb]
    by_cases hmem : id ∈ new
    · rw [(hnew id hmem).1, (hnew' id (mem_append_left mid hmem)).1]
    · rw [← hold id hmem, hold' id (by simp [hmem, hid])]

/-! ## Counting unbound variables -/

theorem unboundCount_eq (a : Arena) :
    a.unboundCount = ((List.range a.size).filter fun id => (a.binding? id).isNone).length := by
  have hcells : a.cells.toList = (List.range a.size).map fun id => ⟨(a.name? id).getD "", a.binding? id⟩ := by
    refine ext_getElem (by simp [size]) fun i hi _ => ?_
    rw [Array.length_toList] at hi
    simp [name?, binding?, Array.getElem?_eq_getElem hi]
  rw [unboundCount, ← Array.countP_toList, hcells, countP_map, countP_eq_length_filter]
  rfl

/-- Binding leaves fewer unbound variables; if their number stays, nothing was bound. -/
theorem Extends.unboundCount_le (h : a.Extends b) (hsize : b.size = a.size) :
    b.unboundCount ≤ a.unboundCount ∧ (b.unboundCount = a.unboundCount → b = a) := by
  rw [unboundCount_eq, unboundCount_eq, hsize]
  have hsub := monotone_filter_right (List.range a.size)
    (p := fun id => (b.binding? id).isNone) (q := fun id => (a.binding? id).isNone) (by
      intro id hid
      rw [Option.isNone_iff_eq_none] at hid ⊢
      exact h.unbound hid)
  refine ⟨hsub.length_le, fun hlen => ?_⟩
  have hfilter := hsub.eq_of_length hlen
  obtain ⟨new, htrail, _, hnew, hold⟩ := h.grown
  have hnil : new = [] := by
    refine eq_nil_iff_forall_not_mem.mpr fun id hid => ?_
    obtain ⟨t, ht⟩ := Option.isSome_iff_exists.mp (hnew id hid).2
    have hmem : id ∈ (List.range a.size).filter fun id => (a.binding? id).isNone := by
      rw [mem_filter, mem_range, ← hsize]
      exact ⟨lt_size_of_binding? ht, by rw [(hnew id hid).1]; rfl⟩
    rw [← hfilter, mem_filter, ht] at hmem
    exact absurd hmem.2 (by simp)
  subst hnil
  exact h.eq_of_unchanged hsize (by rw [unchangedSince, snapshot, htrail]; simp)

end Arena
end UnionTyping
