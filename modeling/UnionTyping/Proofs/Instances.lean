import UnionTyping.Proofs.Following
import UnionTyping.Proofs.Copying

/-!
# `Proofs.Instances` — looking a symbol up in two contexts at once

Two arenas are in step, and a symbol is looked up on both sides. Its candidates are of one of two kinds. Those of a
symbol that is being typed consist of twins. Those of a symbol that was typed before the arenas were in step are
*familiar* (`Familiar`): they are alike over some other pairing, and the two arenas looked the same through it. Their
variables are older than anything that is pinned, so that all of them are copied. In both cases the copies hand out
variables in the same order, and what is left of the candidates consists of twins (`typeOf_follows`).
-/

namespace UnionTyping

open Copying Ty

open Arena (Parallel Twins Mirrors)

/-! ## Replacement with a state -/

variable {t : Ty}

/-- **A replacement follows another one**, in types that are alike, if it does at every variable. -/
theorem substM_follows {σ : Type} {Rel : σ → σ → Prop} {R S : TyVar → TyVar → Prop} (hR : Pairing R)
    {f g : TyVar → StateM σ Ty}
    (hfg : ∀ v w, S v w → ∀ s s', Rel s s' →
      Alike R ((f v).run s).1 ((g w).run s').1 ∧ Rel ((f v).run s).2 ((g w).run s').2)
    {u : Ty} (h : Alike S t u) {s s' : σ} (hs : Rel s s') :
    Alike R ((t.substM f).run s).1 ((u.substM g).run s').1 ∧ Rel ((t.substM f).run s).2 ((u.substM g).run s').2 := by
  revert s s' hs
  refine Alike.structural (motive := fun t u => ∀ {s s' : σ}, Rel s s' →
    Alike R ((t.substM f).run s).1 ((u.substM g).run s').1 ∧
      Rel ((t.substM f).run s).2 ((u.substM g).run s').2) ?simple ?func ?union ?var h
  case simple => exact fun n _ _ hs => ⟨.simple n, hs⟩
  case func =>
      intro a b r t _ _ ha hr s s' hs
      obtain ⟨halike, hs₁⟩ := ha hs
      obtain ⟨halike', hs₂⟩ := hr hs₁
      exact ⟨.func halike halike', hs₂⟩
  case union =>
      intro xs ys hxs ih s s' hs
      -- the members are replaced one after the other
      have hlist : ∀ {s s' : σ}, Rel s s' →
          List.Forall₂ (Alike R) ((substListM f xs).run s).1 ((substListM g ys).run s').1 ∧
            Rel ((substListM f xs).run s).2 ((substListM g ys).run s').2 := by
        clear hs hxs s s'
        induction ih with
        | nil => exact fun hs => ⟨.nil, hs⟩
        | cons hxy _ ih =>
          intro s s' hs
          obtain ⟨halike, hs₁⟩ := hxy hs
          obtain ⟨hrest, hs₂⟩ := ih hs₁
          exact ⟨.cons halike hrest, hs₂⟩
      obtain ⟨halike, hs₁⟩ := hlist hs
      exact ⟨Alike.join hR halike, hs₁⟩
  case var => exact fun hvw s s' hs => hfg _ _ hvw s s' hs

/-! ## Copies -/

variable {a b A B : Arena} {ts us : List Ty}

theorem Arena.Within.congr (h : ∀ id, b.binding? id = a.binding? id) {n : Nat} (ht : b.Within n t) : a.Within n t := by
  induction n generalizing t with
  | zero => exact fun v hv => (h v.id).symm.trans (ht v hv)
  | succ n ih => exact fun v hv u hu => ih (ht v hv u ((h v.id).trans hu))

namespace Copying

variable {c c' : Copying} {v : TyVar} {pinned pinned' : List Nat} {S : TyVar → TyVar → Prop}

/-- **Two series of copies are in step**: they bind nothing, and originals that are related have twins as their
    counterparts, or none yet. -/
structure InStep (A B a b : Arena) (S : TyVar → TyVar → Prop) (c c' : Copying) : Prop where
  twins : Twins A B c.arena c'.arena
  left : ∀ id, c.arena.binding? id = a.binding? id
  right : ∀ id, c'.arena.binding? id = b.binding? id
  counterparts : ∀ v w, S v w → Option.Rel (A.Twin B) (c.counterparts.lookup v.id) (c'.counterparts.lookup w.id)

/-- **The same originals are pinned**, and those are twins. -/
def Pins (A B : Arena) (S : TyVar → TyVar → Prop) (pinned pinned' : List Nat) : Prop :=
  ∀ v w, S v w → pinned.contains v.id = pinned'.contains w.id ∧ (pinned.contains v.id = true → A.Twin B v w)

theorem rename_follows (hS : Pairing S) (hpins : Pins A B S pinned pinned') {w : TyVar} (hvw : S v w)
    (hc : InStep A B a b S c c') : Alike (A.Twin B) ((rename pinned v).run c).1 ((rename pinned' w).run c').1 ∧
      InStep A B a b S ((rename pinned v).run c).2 ((rename pinned' w).run c').2 := by
  obtain ⟨hcontains, htwin⟩ := hpins v w hvw
  rw [run_rename, run_rename, ← hcontains]
  by_cases hpinned : pinned.contains v.id = true
  · rw [if_pos hpinned, if_pos hpinned]
    exact ⟨.var (htwin hpinned), hc⟩
  rw [if_neg hpinned, if_neg hpinned]
  have hlookup := hc.counterparts v w hvw
  cases hv : c.counterparts.lookup v.id with
  | some x =>
    rw [hv] at hlookup
    cases hw : c'.counterparts.lookup w.id with
    | none =>
      rw [hw] at hlookup
      cases hlookup
    | some y =>
      rw [hw] at hlookup
      cases hlookup with
      | some hxy => exact ⟨.var hxy, hc⟩
  | none =>
    rw [hv] at hlookup
    cases hw : c'.counterparts.lookup w.id with
    | some y =>
      rw [hw] at hlookup
      cases hlookup
    | none =>
      refine ⟨.var hc.twins.twin_fresh, hc.twins.fresh, fun id => ?_, fun id => ?_, fun x y hxy => ?_⟩
      · exact (c.arena.binding?_fresh id).trans (hc.left id)
      · exact (c'.arena.binding?_fresh id).trans (hc.right id)
      · -- a partner has one number only, so the new counterparts are found together
        have hiff := hS.id_eq_iff hxy hvw
        rw [lookup_cons_ite, lookup_cons_ite]
        by_cases hx : x.id = v.id
        · rw [if_pos hx, if_pos (hiff.mp hx)]
          exact .some hc.twins.twin_fresh
        · rw [if_neg hx, if_neg fun hy => hx (hiff.mpr hy)]
          exact hc.counterparts x y hxy

/-- What copying does at a variable. -/
def copyAt (pinned : List Nat) : (hops : Nat) → TyVar → StateM Copying Ty
  | 0, v => rename pinned v
  | hops + 1, v => fun c => (c.arena.binding? v.id).elim (rename pinned v) (copyWithin pinned hops) c

theorem copyWithin_eq (hops : Nat) (t : Ty) : copyWithin pinned hops t = t.substM (copyAt pinned hops) := by
  cases hops with
  | zero => rfl
  | succ hops =>
    unfold copyWithin
    congr 1
    funext v c
    simp only [copyAt, bind, StateT.bind, get, getThe, MonadStateOf.get, StateT.get, pure]
    cases c.arena.binding? v.id <;> rfl

theorem run_copyAt_unbound (h : c.arena.binding? v.id = none) (hops : Nat) :
    (copyAt pinned hops v).run c = (rename pinned v).run c := by
  cases hops with
  | zero => rfl
  | succ hops => simp [copyAt, StateT.run, h]

theorem run_copyAt_bound (h : c.arena.binding? v.id = some t) (hops : Nat) :
    (copyAt pinned (hops + 1) v).run c = (copyWithin pinned hops t).run c := by
  simp [copyAt, StateT.run, h]

section Copies

variable (hsource : Mirrors S a b) (hpins : Pins A B S pinned pinned')
include hsource hpins

theorem copyWithin_follows {hops hops' : Nat} {u : Ty} (htu : Alike S t u) (ht : a.Within hops t)
    (hu : b.Within hops' u) (hc : InStep A B a b S c c') :
    Alike (A.Twin B) ((copyWithin pinned hops t).run c).1 ((copyWithin pinned' hops' u).run c').1 ∧
      InStep A B a b S ((copyWithin pinned hops t).run c).2 ((copyWithin pinned' hops' u).run c').2 := by
  induction hops generalizing hops' t u c c' with
  | zero =>
    rw [copyWithin_eq, copyWithin_eq]
    refine substM_follows (Arena.twin_pairing A B) (fun v w hvw c c' hc => ?_) htu.restrict hc
    -- no path leads on from here
    have hv := ht v hvw.2.1
    have hw := hsource.bindings.unbound hvw.1 hv
    rw [run_copyAt_unbound ((hc.left _).trans hv), run_copyAt_unbound ((hc.right _).trans hw)]
    exact rename_follows hsource.pairing hpins hvw.1 hc
  | succ hops ih =>
    rw [copyWithin_eq, copyWithin_eq]
    refine substM_follows (Arena.twin_pairing A B) (fun v w hvw c c' hc => ?_) htu.restrict hc
    rcases hsource.bindings.binding_cases hvw.1 with ⟨hv, hw⟩ | ⟨x, y, hx, hy, hxy⟩
    · rw [run_copyAt_unbound ((hc.left _).trans hv), run_copyAt_unbound ((hc.right _).trans hw)]
      exact rename_follows hsource.pairing hpins hvw.1 hc
    · -- where there is a binding on the left there is one on the right, and so hops are left there
      cases hops' with
      | zero => cases (hu w hvw.2.2).symm.trans hy
      | succ hops' =>
        rw [run_copyAt_bound ((hc.left _).trans hx), run_copyAt_bound ((hc.right _).trans hy)]
        exact ih hxy (ht v hvw.2.1 x hx) (hu w hvw.2.2 y hy) hc

theorem copyAll_follows (htu : List.Forall₂ (Alike S) ts us) (hc : InStep A B a b S c c') :
    List.Forall₂ (Alike (A.Twin B)) ((copyAll pinned ts).run c).1 ((copyAll pinned' us).run c').1 ∧
      InStep A B a b S ((copyAll pinned ts).run c).2 ((copyAll pinned' us).run c').2 := by
  induction htu generalizing c c' with
  | nil => exact ⟨.nil, hc⟩
  | @cons t u ts us htu _ ih =>
    have ht := (hc.twins.leftAcyclic.within t).congr hc.left
    have hu := (hc.twins.rightAcyclic.within u).congr hc.right
    obtain ⟨hfirst, hc₁⟩ := copyWithin_follows hsource hpins htu ht hu hc
    obtain ⟨hrest, hc₂⟩ := ih hc₁
    exact ⟨.cons hfirst hrest, hc₂⟩

end Copies
end Copying

/-! ## Symbols -/

/-- **Types that are alike over some pairing of older variables**, through which the arenas look the same. -/
def Familiar (A B : Arena) (ts us : List Ty) : Prop :=
  ∃ R, Mirrors R A B ∧ (∀ v w, R v w → v.id < A.size ∧ w.id < B.size) ∧ List.Forall₂ (Alike R) ts us

/-- **The candidates of a symbol** on both sides: twins, or familiar. -/
def Related (A B : Arena) (ts us : List Ty) : Prop :=
  List.Forall₂ (Alike (A.Twin B)) ts us ∨ Familiar A B ts us

theorem Related.length_eq (h : Related A B ts us) : ts.length = us.length := by
  rcases h with h | ⟨R, -, -, h⟩
  · exact h.length_eq
  · exact h.length_eq

/-- The pinned numbers are those of twins. -/
theorem pinnedIds_paired (h : Twins A B a b) {e e' : Environment}
    (hpinned : List.Forall₂ (Alike (A.Twin B)) e.pinnedTypes e'.pinnedTypes) :
    List.Forall₂ (A.Paired B) (e.pinnedIds a) (e'.pinnedIds b) := by
  unfold Environment.pinnedIds
  refine forall₂_eraseDups (Arena.paired_biUnique A B) ?_
  refine List.rel_flatMap hpinned fun t u htu => ?_
  exact List.rel_map (fun v w hvw => hvw.paired) (h.mirrors.freeVars htu)

section Lookup

variable (h : Twins A B a b) {pinned pinned' : List Nat} (hpinned : List.Forall₂ (A.Paired B) pinned pinned')
include h hpinned

/-- **Candidates are copied in step**, of either kind. -/
theorem Related.copies (hts : Related A B ts us) :
    List.Forall₂ (Alike (A.Twin B)) ((copyAll pinned ts).run { arena := a }).1
        ((copyAll pinned' us).run { arena := b }).1 ∧
      Twins A B ((copyAll pinned ts).run { arena := a }).2.arena ((copyAll pinned' us).run { arena := b }).2.arena := by
  have hstart : ∀ S, InStep A B a b S { arena := a } { arena := b } :=
    fun S => ⟨h, fun _ => rfl, fun _ => rfl, fun _ _ _ => .none⟩
  rcases hts with htwins | ⟨R, hmirrors, hbounds, hts⟩
  · have hpins : Pins A B (A.Twin B) pinned pinned' :=
      fun v w hvw => ⟨contains_of_forall₂ (Arena.paired_biUnique A B) hpinned hvw.paired, fun _ => hvw⟩
    obtain ⟨hcopies, hend⟩ := copyAll_follows h.mirrors hpins htwins (hstart _)
    exact ⟨hcopies, hend.twins⟩
  · -- older variables are bound as they were, and none of them is pinned
    have hsource : Mirrors R a b := by
      refine ⟨hmirrors.pairing, fun v w hvw => ?_, h.leftAcyclic, h.rightAcyclic⟩
      obtain ⟨hv, hw⟩ := hbounds v w hvw
      rw [h.left.old _ hv, h.right.old _ hw]
      exact hmirrors.bindings v w hvw
    have hpins : Pins A B R pinned pinned' := by
      intro v w hvw
      obtain ⟨hv, hw⟩ := hbounds v w hvw
      have hleft : pinned.contains v.id = false := by
        refine Bool.eq_false_iff.mpr fun hmem => Nat.not_le.mpr hv ?_
        exact forall_of_forall₂ hpinned (fun _ _ hij => hij.le_left) _ (List.contains_iff_mem.mp hmem)
      have hright : pinned'.contains w.id = false := by
        refine Bool.eq_false_iff.mpr fun hmem => Nat.not_le.mpr hw ?_
        exact forall_of_forall₂ hpinned.flip (fun _ _ hij => Arena.Paired.le_right hij) _
          (List.contains_iff_mem.mp hmem)
      rw [hleft, hright]
      exact ⟨rfl, nofun⟩
    obtain ⟨hcopies, hend⟩ := copyAll_follows hsource hpins hts (hstart _)
    exact ⟨hcopies, hend.twins⟩

end Lookup

/-- **Looking a symbol up** on both sides gives types that are alike. -/
theorem typeOf_follows {a' : Arena} (h : Twins A B a b) {e e' : Environment} {l : Locator}
    (hpinned : List.Forall₂ (Alike (A.Twin B)) e.pinnedTypes e'.pinnedTypes)
    (hcandidates : Related A B (e.candidates l) (e'.candidates l)) (hrun : e.typeOf a l = (some t, a')) :
    ∃ u b', e'.typeOf b l = (some u, b') ∧ Alike (A.Twin B) t u ∧ Twins A B a' b' := by
  obtain ⟨hcopies, htwins⟩ := hcandidates.copies h (pinnedIds_paired h hpinned)
  have hlength := hcandidates.length_eq
  rcases typeOf_cases e a l with ⟨-, hnone⟩ | ⟨copies, c, hcopy, hsome⟩
  · cases hnone.symm.trans hrun
  rw [hrun] at hsome
  obtain ⟨hunion, rfl⟩ := Prod.mk.inj hsome
  rcases typeOf_cases e' b l with ⟨hnil, -⟩ | ⟨copies', c', hcopy', hsome'⟩
  · rw [hnil, List.length_nil, List.length_eq_zero_iff] at hlength
    rw [Environment.typeOf, hlength] at hrun
    cases hrun
  · rw [hcopy, hcopy'] at hcopies htwins
    have hjoined := Alike.union? (Arena.twin_pairing A B)
      (List.rel_map (fun _ _ hxy => htwins.mirrors.expose hxy) hcopies)
    rw [← hunion] at hjoined
    rw [hsome']
    generalize union? (copies'.map c'.arena.expose) = joined at hjoined
    cases hjoined with
    | some halike => exact ⟨_, c'.arena, rfl, halike, htwins⟩

end UnionTyping
