import UnionTyping.Proofs.Alike
import UnionTyping.Proofs.Application

/-!
# `Proofs.Parallel` — two arenas in step

Two arenas that were different to begin with are used in the same way from then on. Variables that are handed out in
the same turn are *twins*: their numbers differ by as much as the arenas differed in size at the start. The arenas are
in step (`Arena.Parallel`) as long as twins are unbound on both sides or bound to types that are alike, in the same
order, and what was there at the start is not touched. Handing out variables, binding twins and undoing what was bound
since a common moment all keep them in step. Where neither has a cycle (`Arena.Twins`) they look the same, too.
-/

namespace UnionTyping

open List TyVar

/-! ## Twins -/

variable {i j : Nat} {a b : Arena} {t : Ty}

/-- The variable with a number, under the name it is handed out with. -/
def TyVar.numbered (n : Nat) : TyVar :=
  ⟨n, "t" ++ toString n⟩

@[simp] theorem TyVar.numbered_id (n : Nat) : (numbered n).id = n :=
  rfl

namespace Arena

/-- The numbers of variables handed out in the same turn, counted from the two arenas on. -/
def Paired (A B : Arena) (i j : Nat) : Prop :=
  ∃ k, i = A.size + k ∧ j = B.size + k

/-- **The variables were handed out in the same turn**, counted from the two arenas on. -/
def Twin (A B : Arena) (v w : TyVar) : Prop :=
  ∃ k, v = .numbered (A.size + k) ∧ w = .numbered (B.size + k)

variable {A B : Arena}

theorem Paired.le_left (h : A.Paired B i j) : A.size ≤ i := by
  obtain ⟨k, rfl, -⟩ := h
  exact Nat.le_add_right _ _

theorem Paired.le_right (h : A.Paired B i j) : B.size ≤ j := by
  obtain ⟨k, -, rfl⟩ := h
  exact Nat.le_add_right _ _

theorem Twin.paired {v w : TyVar} (h : A.Twin B v w) : A.Paired B v.id w.id := by
  obtain ⟨k, rfl, rfl⟩ := h
  exact ⟨k, rfl, rfl⟩

theorem Twin.symm {v w : TyVar} (h : A.Twin B v w) : B.Twin A w v := by
  obtain ⟨k, hv, hw⟩ := h
  exact ⟨k, hw, hv⟩

theorem flip_twin (A B : Arena) : flip (A.Twin B) = B.Twin A := by
  funext w v
  exact propext ⟨Twin.symm, Twin.symm⟩

theorem twin_of_paired (h : A.Paired B i j) : A.Twin B (.numbered i) (.numbered j) := by
  obtain ⟨k, rfl, rfl⟩ := h
  exact ⟨k, rfl, rfl⟩

theorem paired_biUnique (A B : Arena) : Relator.BiUnique (A.Paired B) := by
  constructor
  · rintro i i' j ⟨k, rfl, rfl⟩ ⟨k', rfl, hj⟩
    omega
  · rintro i j j' ⟨k, rfl, rfl⟩ ⟨k', hi, rfl⟩
    omega

theorem twin_pairing (A B : Arena) : Pairing (A.Twin B) := by
  constructor
  · rintro v v' w w' ⟨k, rfl, rfl⟩ ⟨k', rfl, rfl⟩ hid
    obtain rfl : k = k' := by simpa using hid
    exact ⟨rfl, rfl⟩
  · rintro v v' w w' ⟨k, rfl, rfl⟩ ⟨k', rfl, rfl⟩ hid
    obtain rfl : k = k' := by simpa using hid
    exact ⟨rfl, rfl⟩

/-! ## Arenas in step -/

/-- **The arena has grown with new variables only**: those that it had are bound to what they were bound to. -/
structure Outgrows (A a : Arena) : Prop where
  grows : A.Extends a
  old : ∀ id < A.size, a.binding? id = A.binding? id

/-- **Two arenas have grown in step**: by as many variables, and twins were bound in the same order, to types that
    are alike. -/
structure Parallel (A B a b : Arena) : Prop where
  left : A.Outgrows a
  right : B.Outgrows b
  size : A.Paired B a.size b.size
  bindings : a.Alike (A.Twin B) b
  trail : Forall₂ (A.Paired B) (a.boundSince A.snapshot) (b.boundSince B.snapshot)

/-- What was bound since an earlier moment was bound before or after a later one. -/
theorem boundSince_append (hA : A.Extends a) (ha : a.Extends b) :
    b.boundSince A.snapshot = a.boundSince A.snapshot ++ b.boundSince a.snapshot := by
  obtain ⟨new, htrail, -⟩ := hA.grown
  obtain ⟨new', htrail', -⟩ := ha.grown
  have hlength : (new' ++ (new ++ A.trail)).length - A.trail.length = (new' ++ new).length := by simp; omega
  simp only [boundSince, snapshot, htrail', htrail]
  rw [hlength, ← append_assoc, take_left, reverse_append]
  simp

theorem boundSince_self (a : Arena) : a.boundSince a.snapshot = [] := by
  simp [boundSince, snapshot]

/-- Nothing was bound since, if the trail is as long as it was. -/
theorem unchangedSince_eq (h : a.Extends b) : b.unchangedSince a.snapshot = (b.boundSince a.snapshot).isEmpty := by
  obtain ⟨new, htrail, -⟩ := h.grown
  rw [Bool.eq_iff_iff]
  simp [unchangedSince, boundSince, snapshot, htrail]

theorem Outgrows.trans_same (h : A.Outgrows a) (hab : a.Extends b) (hsame : ∀ id, b.binding? id = a.binding? id) :
    A.Outgrows b :=
  ⟨h.grows.trans hab, fun id hid => (hsame id).trans (h.old id hid)⟩

namespace Parallel

variable {a' b' : Arena}

theorem symm (h : Parallel A B a b) : Parallel B A b a := by
  obtain ⟨k, hk, hk'⟩ := h.size
  refine ⟨h.right, h.left, ⟨k, hk', hk⟩, ?_, ?_⟩
  · rw [← flip_twin]
    exact h.bindings.symm
  · refine h.trail.flip.imp fun i j hij => ?_
    obtain ⟨k, hi, hj⟩ := hij
    exact ⟨k, hj, hi⟩

/-- Before anything happens. -/
theorem refl (A B : Arena) : Parallel A B A B := by
  refine ⟨⟨.refl A, fun _ _ => rfl⟩, ⟨.refl B, fun _ _ => rfl⟩, ⟨0, rfl, rfl⟩, ?_, ?_⟩
  · rintro v w ⟨k, rfl, rfl⟩
    rw [numbered_id, numbered_id, binding?_eq_none (by omega), binding?_eq_none (by omega)]
    exact .none
  · rw [boundSince_self, boundSince_self]
    exact .nil

theorem lt_size_iff (h : Parallel A B a b) (hij : A.Paired B i j) : i < a.size ↔ j < b.size := by
  obtain ⟨k, ha, hb⟩ := h.size
  obtain ⟨k', rfl, rfl⟩ := hij
  omega

/-- The variables handed out next are twins. -/
theorem twin_fresh (h : Parallel A B a b) : A.Twin B a.fresh.1 b.fresh.1 :=
  twin_of_paired h.size

theorem fresh (h : Parallel A B a b) : Parallel A B a.fresh.2 b.fresh.2 := by
  refine ⟨h.left.trans_same (.of_fresh a) a.binding?_fresh, h.right.trans_same (.of_fresh b) b.binding?_fresh,
    ?_, ?_, h.trail⟩
  · obtain ⟨k, ha, hb⟩ := h.size
    exact ⟨k + 1, by rw [size_fresh]; omega, by rw [size_fresh]; omega⟩
  · intro v w hvw
    rw [a.binding?_fresh, b.binding?_fresh]
    exact h.bindings v w hvw

/-- What was bound since a moment on the way was bound in the same order. -/
theorem trail_since (h : Parallel A B a b) (h' : Parallel A B a' b') (ha : a.Extends a') (hb : b.Extends b') :
    Forall₂ (A.Paired B) (a'.boundSince a.snapshot) (b'.boundSince b.snapshot) := by
  have htrail := h'.trail
  rw [boundSince_append h.left.grows ha, boundSince_append h.right.grows hb] at htrail
  have hdrop := forall₂_drop (a.boundSince A.snapshot).length htrail
  rwa [drop_left, h.trail.length_eq, drop_left] at hdrop

theorem unchangedSince (h : Parallel A B a b) (h' : Parallel A B a' b') (ha : a.Extends a') (hb : b.Extends b') :
    a'.unchangedSince a.snapshot = b'.unchangedSince b.snapshot := by
  rw [unchangedSince_eq ha, unchangedSince_eq hb, Bool.eq_iff_iff, isEmpty_iff_length_eq_zero,
    isEmpty_iff_length_eq_zero, (h.trail_since h' ha hb).length_eq]

/-- Undoing on both sides what was done on both. -/
theorem rollback (h : Parallel A B a b) (h' : Parallel A B a' b') (ha : a.Extends a') (hb : b.Extends b') :
    Parallel A B (a'.rollback a.snapshot) (b'.rollback b.snapshot) := by
  refine ⟨h.left.trans_same ha.rollback (binding?_rollback ha), h.right.trans_same hb.rollback (binding?_rollback hb),
    ?_, ?_, ?_⟩
  · rw [size_rollback, size_rollback]
    exact h'.size
  · intro v w hvw
    rw [binding?_rollback ha, binding?_rollback hb]
    exact h.bindings v w hvw
  · have htrail := h.trail
    unfold boundSince at htrail ⊢
    rwa [trail_rollback ha, trail_rollback hb]

end Parallel

theorem bind_ok_iff {id : Nat} : (∃ b, a.bind? id t = .ok b) ↔ id < a.size ∧ a.binding? id = none := by
  constructor
  · rintro ⟨b, hb⟩
    have hbound := binding?_bind hb id
    rw [if_pos rfl] at hbound
    have hlt := lt_size_of_binding? hbound
    rw [size_bind hb] at hlt
    exact ⟨hlt, unbound_of_bind hb⟩
  · exact fun h => bind_of_unbound t h.1 h.2

theorem boundSince_bind {id : Nat} (hA : A.Extends a) (hb : a.bind? id t = .ok b) :
    b.boundSince A.snapshot = a.boundSince A.snapshot ++ [id] := by
  rw [boundSince_append hA (.of_bind hb)]
  simp [boundSince, snapshot, trail_bind hb]

namespace Parallel

variable {u : Ty}

/-- Binding twins to types that are alike. -/
theorem bind {a' b' : Arena} (h : Parallel A B a b) (hij : A.Paired B i j) (htu : Ty.Alike (A.Twin B) t u)
    (ha : a.bind? i t = .ok a') (hb : b.bind? j u = .ok b') : Parallel A B a' b' := by
  refine ⟨⟨h.left.grows.trans (.of_bind ha), fun id hid => ?_⟩, ⟨h.right.grows.trans (.of_bind hb), fun id hid => ?_⟩,
    ?_, ?_, ?_⟩
  · obtain ⟨k, rfl, rfl⟩ := hij
    rw [binding?_bind ha, if_neg (by omega), h.left.old id hid]
  · obtain ⟨k, rfl, rfl⟩ := hij
    rw [binding?_bind hb, if_neg (by omega), h.right.old id hid]
  · rw [size_bind ha, size_bind hb]
    exact h.size
  · intro v w hvw
    rw [binding?_bind ha, binding?_bind hb]
    have hiff : v.id = i ↔ w.id = j := by
      obtain ⟨k, rfl, rfl⟩ := hij
      obtain ⟨k', rfl, rfl⟩ := hvw
      simp
    by_cases hi : v.id = i
    · rw [if_pos hi, if_pos (hiff.mp hi)]
      exact .some htu
    · rw [if_neg hi, if_neg fun hj => hi (hiff.mpr hj)]
      exact h.bindings v w hvw
  · rw [boundSince_bind h.left.grows ha, boundSince_bind h.right.grows hb]
    exact rel_append h.trail (.cons hij .nil)

/-- Twins can be bound on both sides, or on neither. -/
theorem bind_iff (h : Parallel A B a b) (hij : A.Paired B i j) :
    (∃ a', a.bind? i t = .ok a') ↔ ∃ b', b.bind? j u = .ok b' := by
  rw [bind_ok_iff, bind_ok_iff, h.lt_size_iff hij]
  refine and_congr_right fun _ => ?_
  rcases h.bindings.binding_cases (twin_of_paired hij) with ⟨ha, hb⟩ | ⟨t, u, ha, hb, -⟩
  · exact iff_of_true ha hb
  · refine iff_of_false ?_ ?_
    · exact fun hnone => by cases hnone.symm.trans ha
    · exact fun hnone => by cases hnone.symm.trans hb

end Parallel
end Arena

open Arena (Parallel)

section Twins

variable {A B : Arena}

/-- **Binding through the store** succeeds on both sides or on neither. -/
theorem Arena.Parallel.storeBind (s s' : Store) (h : Parallel A B s.arena s'.arena) {u : Ty} (hij : A.Paired B i j)
    (htu : Ty.Alike (A.Twin B) t u) :
    (s.bind i t).1 = (s'.bind j u).1 ∧ Parallel A B (s.bind i t).2.arena (s'.bind j u).2.arena := by
  have hiff := h.bind_iff (t := t) (u := u) hij
  rcases s.bind_cases i t with ⟨a, ha, hok, harena⟩ | ⟨hnot, hok, harena⟩
  · obtain ⟨b, hb⟩ := hiff.mp ⟨a, ha⟩
    rcases s'.bind_cases j u with ⟨b', hb', hok', harena'⟩ | ⟨hnot', -, -⟩
    · rw [hok, hok', harena, harena']
      exact ⟨rfl, h.bind hij htu ha hb'⟩
    · exact absurd hb (hnot' b)
  · rcases s'.bind_cases j u with ⟨b', hb', -, -⟩ | ⟨-, hok', harena'⟩
    · obtain ⟨a, ha⟩ := hiff.mpr ⟨b', hb'⟩
      exact absurd ha (hnot a)
    · rw [hok, hok', harena, harena']
      exact ⟨rfl, h⟩

/-! ## Arenas in step, without cycles -/

/-- **Two arenas have grown in step, and neither has a cycle.** -/
structure Arena.Twins (A B a b : Arena) : Prop extends Parallel A B a b where
  leftAcyclic : a.Acyclic
  rightAcyclic : b.Acyclic

/-- The types of the variables handed out from a number on. Sums and records are not excluded, placeholders are. -/
def Fragment.since (n : Nat) : Fragment :=
  ⟨fun v => ∃ k, v = .numbered (n + k), True, True, False, True⟩

theorem Fragment.since_coherent (n : Nat) : (Fragment.since n).Coherent := by
  rintro v w ⟨k, rfl⟩ ⟨k', rfl⟩ hid
  rw [numbered_id, numbered_id] at hid
  rw [hid]

namespace Ty.Alike

variable {u : Ty}

theorem twin_symm (h : Ty.Alike (A.Twin B) t u) : Ty.Alike (B.Twin A) u t := by
  rw [← Arena.flip_twin]
  exact h.symm

theorem in_since (h : Ty.Alike (A.Twin B) t u) : t.In (.since A.size) := by
  refine structural (motive := fun t _ => t.In (.since A.size)) ?simple ?func ?union ?var h
  case simple => exact fun n => Ty.in_simple
  case func => exact fun _ _ ha hr => Ty.in_func.mpr ⟨ha, hr⟩
  case union =>
      intro xs ys _ ih
      exact Ty.in_union.mpr ⟨⟨trivial, fun _ => trivial⟩, forall_of_forall₂ ih fun _ _ hx => hx⟩
  case var =>
      rintro v w ⟨k, rfl, rfl⟩
      exact Ty.in_var.mpr ⟨k, rfl⟩

end Ty.Alike

/-- Bindings of twins to types that are alike. -/
def Arena.Entries (A B : Arena) (e e' : Nat × Ty) : Prop :=
  A.Paired B e.1 e'.1 ∧ Ty.Alike (A.Twin B) e.2 e'.2

namespace Arena.Twins

theorem symm (h : Twins A B a b) : Twins B A b a :=
  ⟨h.toParallel.symm, h.rightAcyclic, h.leftAcyclic⟩

theorem mirrors (h : Twins A B a b) : Mirrors (A.Twin B) a b :=
  ⟨twin_pairing A B, h.bindings, h.leftAcyclic, h.rightAcyclic⟩

theorem closed (h : Twins A B a b) : a.Closed (.since A.size) := by
  rintro v t ⟨k, rfl⟩ ht
  obtain ⟨u, -, halike⟩ := h.bindings.bound ⟨k, rfl, rfl⟩ ht
  exact halike.in_since

theorem fresh (h : Twins A B a b) : Twins A B a.fresh.2 b.fresh.2 :=
  ⟨h.toParallel.fresh, h.leftAcyclic.congr a.binding?_fresh, h.rightAcyclic.congr b.binding?_fresh⟩

theorem rollback {a' b' : Arena} (h : Twins A B a b) (h' : Twins A B a' b') (ha : a.Extends a') (hb : b.Extends b') :
    Twins A B (a'.rollback a.snapshot) (b'.rollback b.snapshot) :=
  ⟨h.toParallel.rollback h'.toParallel ha hb, h.leftAcyclic.congr (binding?_rollback ha),
    h.rightAcyclic.congr (binding?_rollback hb)⟩

/-- The variables bound since are twins, and their values are alike. -/
theorem bindingsSince {a' b' : Arena} (h : Twins A B a b) (h' : Twins A B a' b') (ha : a.Extends a')
    (hb : b.Extends b') :
    Forall₂ (A.Entries B) (a'.bindingsSince a.snapshot) (b'.bindingsSince b.snapshot) := by
  unfold Arena.bindingsSince
  refine rel_filterMap ?_ (h.trail_since h'.toParallel ha hb)
  intro i j hij
  beta_reduce
  rcases h'.bindings.binding_cases (twin_of_paired hij) with ⟨hi, hj⟩ | ⟨t, u, hi, hj, htu⟩
  · rw [numbered_id] at hi hj
    rw [hi, hj]
    exact .none
  · rw [numbered_id] at hi hj
    rw [hi, hj]
    exact .some ⟨hij, h'.mirrors.expose htu⟩

end Arena.Twins

end Twins
end UnionTyping
