import UnionTyping.Proofs.Settling
import UnionTyping.Proofs.Unfolding

/-!
# `Proofs.Interchange` — the order of alternatives

Alternatives are tried one after the other, up to one that needs no binding. Still their order makes no difference, but
for the order of the members of unions that are bound (`order_of_alternatives_is_irrelevant`).

Every attempt starts from the same arena. What it comes to depends on that arena and not on what the earlier attempts
have written to the journal (`compareStep_blind`), so it is the same at every place in the list. A search then either
meets an alternative that needs no binding, wherever it stands, or it finds the successes of all attempts in the order
in which they are tried (`tryAlternatives_finds`). What several successes have in common is read off all of them alike:
the first one only decides in which order the variables are bound.
-/

namespace UnionTyping

open List Filter

/-! ## The journal -/

variable {s s' : Store} {level : Nat} {alternatives : List Ty}

/-- **The second run comes to the same as the first**: to the same answer and the same arena, whatever is written to the
    journal. -/
def Concurs {α : Type} (x y : Option (α × Store)) : Prop :=
  ∀ a s, x = some (a, s) → ∃ s', y = some (a, s') ∧ s'.arena = s.arena

namespace Concurs

variable {α : Type}

theorem answer {a : α} (hs : s'.arena = s.arena) : Concurs (some (a, s)) (some (a, s')) := by
  intro b t h
  cases h
  exact ⟨s', rfl, hs⟩

theorem bind {β : Type} {x y : Option (α × Store)} {f g : α × Store → Option (β × Store)} (h : Concurs x y)
    (hfg : ∀ a (s s' : Store), s'.arena = s.arena → Concurs (f (a, s)) (g (a, s'))) :
    Concurs (x >>= f) (y >>= g) := by
  intro b t hrun
  obtain ⟨⟨a, s⟩, hx, hf⟩ := Option.bind_eq_some_iff.mp hrun
  obtain ⟨s', hy, hs⟩ := h a s hx
  rw [hy]
  exact hfg a s s' hs b t hf

end Concurs

/-- The attempt depends on the arena alone. -/
def Attempt.Blind (attempt : Attempt) : Prop :=
  ∀ t (s s' : Store), s'.arena = s.arena → Concurs (attempt t s) (attempt t s')

/-- **The comparison depends on the arena alone**, not on the journal. -/
def Comparison.Blind (compare : Comparison) : Prop :=
  ∀ l r level (s s' : Store), s'.arena = s.arena → Concurs (compare l r level s) (compare l r level s')

section Blindness

theorem Store.bind_blind (hs : s'.arena = s.arena) (id : Nat) (t : Ty) :
    (s'.bind id t).1 = (s.bind id t).1 ∧ (s'.bind id t).2.arena = (s.bind id t).2.arena := by
  unfold Store.bind
  rw [hs]
  cases s.arena.bind? id t <;> exact ⟨rfl, rfl⟩

theorem bindTo_blind (hs : s'.arena = s.arena) (v : TyVar) (t : Ty) :
    (bindTo v t s').1 = (bindTo v t s).1 ∧ (bindTo v t s').2.arena = (bindTo v t s).2.arena := by
  unfold bindTo
  rw [hs]
  split
  · exact ⟨rfl, hs⟩
  · exact Store.bind_blind hs v.id t

theorem accrete_blind (hs : s'.arena = s.arena) (level count : Nat) (entries : List (Nat × Ty)) :
    (accrete level count entries s').arena = (accrete level count entries s).arena := by
  induction entries generalizing s s' with
  | nil => exact hs
  | cons e rest ih =>
    obtain ⟨id, t⟩ := e
    unfold accrete
    refine ih (Store.bind_blind ?_ id t).2
    exact hs

theorem compareAll_blind {next : Comparison} (hnext : next.Blind) {verdict : Bool} {pairs : List (Ty × Ty)}
    (hs : s'.arena = s.arena) :
    Concurs (compareAll next level verdict pairs s) (compareAll next level verdict pairs s') := by
  induction pairs generalizing s s' with
  | nil => exact .answer hs
  | cons p ps ih =>
    unfold compareAll
    refine (hnext _ _ _ s s' hs).bind fun ok s₁ s₁' hs₁ => ?_
    cases ok with
    | false => exact .answer hs₁
    | true => exact ih hs₁

theorem tryAlternatives_blind {attempt : Attempt} (hattempt : attempt.Blind) (hs : s'.arena = s.arena) :
    Concurs (tryAlternatives attempt alternatives s) (tryAlternatives attempt alternatives s') := by
  induction alternatives generalizing s s' with
  | nil => exact .answer hs
  | cons t rest ih =>
    unfold tryAlternatives
    refine (hattempt t s s' hs).bind fun ok tried tried' htried => ?_
    simp only [hs, htried]
    split
    · exact .answer htried
    · have hback : (tried'.rollback s.arena.snapshot).arena = (tried.rollback s.arena.snapshot).arena :=
        congrArg (·.rollback s.arena.snapshot) htried
      refine (ih hback).bind fun search s₂ s₂' hs₂ => ?_
      cases search with
      | settled => exact .answer hs₂
      | found more => cases ok <;> exact .answer hs₂

theorem compareAlternatives_blind {attempt : Attempt} (hattempt : attempt.Blind) (hs : s'.arena = s.arena) :
    Concurs (compareAlternatives attempt level alternatives s) (compareAlternatives attempt level alternatives s') := by
  unfold compareAlternatives
  refine (tryAlternatives_blind hattempt hs).bind fun search s₁ s₁' hs₁ => ?_
  cases search with
  | settled => exact .answer hs₁
  | found successes =>
    cases successes with
    | nil => exact .answer hs₁
    | cons first rest =>
      cases rest with
      | nil => exact hattempt _ _ _ hs₁
      | cons second rest => exact .answer (accrete_blind hs₁ _ _ _)

/-- **One step depends on the arena alone** if the steps below it do. -/
theorem compareStep_blind {defs : Definitions} {next : Comparison} (hnext : next.Blind) :
    (compareStep defs next).Blind := by
  intro l r level s s' hs ok after h
  rcases compareStep_cases h with ⟨hequal, rfl, hafter⟩ | ⟨hdiffer, before, done, hbefore, hafter, hrun⟩
  · rw [← hs] at hequal
    obtain ⟨after', hstep, hafter'⟩ := compareStep_equal hequal
    exact ⟨after', hstep, by rw [hafter', hafter, hs]⟩
  · rw [← hs] at hdiffer hrun
    obtain ⟨before', hbefore', hstep⟩ := compareStep_run hdiffer
    have hsame : before'.arena = before.arena := by rw [hbefore', hbefore, hs]
    have hplan : Concurs ((plan defs s'.arena (s'.arena.follow l) (s'.arena.follow r)).run next level before)
        ((plan defs s'.arena (s'.arena.follow l) (s'.arena.follow r)).run next level before') := by
      cases plan defs s'.arena (s'.arena.follow l) (s'.arena.follow r) with
      | decide verdict => exact .answer hsame
      | bind v t =>
        obtain ⟨hok, harena⟩ := bindTo_blind hsame v t
        intro ok after h
        have hout : bindTo v t before = (ok, after) := Option.some.inj h
        rw [hout] at hok harena
        exact ⟨(bindTo v t before').2, congrArg some (Prod.ext hok rfl), harena⟩
      | all pairs verdict => exact compareAll_blind hnext hsame
      | any pair alternatives => exact compareAlternatives_blind (fun t => hnext _ _ _) hsame
    obtain ⟨done', hrun', hdone⟩ := hplan ok done hrun
    obtain ⟨after', hout, hafter'⟩ := hstep ok done' hrun'
    exact ⟨after', hout, by rw [hafter', hdone, hafter]⟩

theorem unfolded_binds (defs : Definitions) (n : Nat) : (unfolded defs n).Binding := by
  induction n with
  | zero =>
    intro l r level s ok s' h
    cases h
  | succ n ih => exact compareStep_binds ih

theorem unfolded_blind (defs : Definitions) (n : Nat) : (unfolded defs n).Blind := by
  induction n with
  | zero =>
    intro l r level s s' _ ok after h
    cases h
  | succ n ih => exact compareStep_blind ih

end Blindness

/-! ## The search -/

/-- The success that an attempt from the store comes to, if it is one. -/
def Attempt.success? (attempt : Attempt) (s : Store) (t : Ty) : Option Success :=
  (attempt t s).bind fun out => if out.1 then some ⟨t, out.2.arena.bindingsSince s.arena.snapshot⟩ else none

section Searching

variable {attempt : Attempt} (hblind : attempt.Blind)
  (hbinds : ∀ t s ok s', attempt t s = some (ok, s') → s.arena.Binds s'.arena)
include hblind hbinds

/-- **What a search finds**: an alternative that needs no binding, or the successes of all of them. Each attempt is as
    good as one from the start. -/
theorem tryAlternatives_finds {s₁ : Store} {search : Search} (hs : s₁.arena = s.arena)
    (h : tryAlternatives attempt alternatives s₁ = some (search, s')) :
    (search = .settled ∧ ∃ t ∈ alternatives, ∃ after, attempt t s = some (true, after) ∧ after.arena = s.arena) ∨
      (search = .found (alternatives.filterMap (attempt.success? s)) ∧
        ∀ t ∈ alternatives, ∀ after, attempt t s = some (true, after) → after.arena ≠ s.arena) := by
  induction alternatives generalizing s₁ search s' with
  | nil =>
    cases h
    exact .inr ⟨rfl, by simp⟩
  | cons t rest ih =>
    unfold tryAlternatives at h
    obtain ⟨⟨ok, tried⟩, htried, h⟩ := Option.bind_eq_some_iff.mp h
    have hgrows := hbinds t s₁ ok tried htried
    -- the attempt as it would have been made at the start
    obtain ⟨first, hfirst, harena⟩ := hblind t s₁ s hs.symm ok tried htried
    simp only [] at h
    split at h
    · rename_i hsettled
      rw [Bool.and_eq_true] at hsettled
      cases h
      refine .inl ⟨rfl, t, mem_cons_self, first, hsettled.1 ▸ hfirst, ?_⟩
      rw [harena, hgrows.grows.eq_of_unchanged hgrows.size_eq hsettled.2, hs]
    · rename_i hunsettled
      obtain ⟨⟨searched, s₂⟩, hrest, h⟩ := Option.bind_eq_some_iff.mp h
      have hback : (tried.rollback s₁.arena.snapshot).arena = s.arena := hgrows.rollback.trans hs
      have hthis : ∀ after, attempt t s = some (true, after) → after.arena ≠ s.arena := by
        intro after hafter hsame
        rw [hfirst] at hafter
        cases hafter
        refine hunsettled ?_
        rw [← harena, hsame, hs, Bool.true_and]
        exact beq_self_eq_true _
      rcases ih hback hrest with ⟨rfl, u, hu, hsettled⟩ | ⟨rfl, hothers⟩
      · cases h
        exact .inl ⟨rfl, u, mem_cons_of_mem _ hu, hsettled⟩
      · refine .inr ⟨?_, forall_mem_cons.mpr ⟨hthis, hothers⟩⟩
        have hsuccess : attempt.success? s t =
            if ok then some ⟨t, tried.arena.bindingsSince s₁.arena.snapshot⟩ else none := by
          rw [Attempt.success?, hfirst, Option.bind_some, harena, hs]
        cases ok with
        | true =>
          cases h
          rw [filterMap_cons_some hsuccess]
        | false =>
          cases h
          rw [filterMap_cons_none hsuccess]

end Searching

/-! ## What several successes have in common -/

/-- **The types are the same**, but for the order of the members of a union. -/
def Ty.Reordered (t u : Ty) : Prop :=
  t = u ∨ ∃ ms ns, t = .union ms ∧ u = .union ns ∧ ms.Perm ns

theorem Ty.reordered_refl (x : Option Ty) : Option.Rel Reordered x x := by
  cases x with
  | none => exact .none
  | some t => exact .some (Or.inl rfl)

/-- The order of its members is all that distinguishes a union from another one of the same members. -/
theorem Ty.union?_perm {ts us : List Ty} (h : ts.Perm us) : Option.Rel Reordered (union? ts) (union? us) := by
  have hperm : (ts.flatMap alternatives).eraseDups.Perm (us.flatMap alternatives).eraseDups := by
    refine (perm_ext_iff_of_nodup (nodup_eraseDups _) (nodup_eraseDups _)).mpr fun x => ?_
    simp only [mem_flattened, h.mem_iff]
  unfold union?
  generalize (ts.flatMap alternatives).eraseDups = xs at hperm
  generalize (us.flatMap alternatives).eraseDups = ys at hperm
  cases xs with
  | nil =>
    obtain rfl := nil_perm.mp hperm
    exact .none
  | cons x xs =>
    cases xs with
    | nil =>
      obtain rfl := singleton_perm.mp hperm
      exact .some (Or.inl rfl)
    | cons x' xs =>
      cases ys with
      | nil => exact absurd hperm.length_eq (by simp)
      | cons y ys =>
        cases ys with
        | nil => exact absurd hperm.length_eq (by simp)
        | cons y' ys => exact .some (Or.inr ⟨_, _, rfl, rfl, hperm⟩)

theorem mapM_perm {α β : Type} {f : α → Option β} {xs ys : List α} (h : xs.Perm ys) :
    Option.Rel List.Perm (xs.mapM f) (ys.mapM f) := by
  induction h with
  | nil => exact .some .nil
  | @cons x xs ys _ ih =>
    rw [mapM_cons, mapM_cons]
    generalize xs.mapM f = vs at ih
    generalize ys.mapM f = ws at ih
    cases f x with
    | none => exact .none
    | some v =>
      cases ih with
      | none => exact .none
      | some hperm => exact .some (hperm.cons v)
  | swap x y xs =>
    simp only [mapM_cons]
    cases f x with
    | none => cases f y <;> exact .none
    | some v =>
      cases f y with
      | none => exact .none
      | some w =>
        cases xs.mapM f with
        | none => exact .none
        | some vs => exact .some (.swap v w vs)
  | @trans xs ys zs _ _ ih ih' =>
    generalize xs.mapM f = us at ih
    generalize ys.mapM f = vs at ih ih'
    generalize zs.mapM f = ws at ih'
    cases ih with
    | none => exact ih'
    | some hperm =>
      cases ih' with
      | some hperm' => exact .some (hperm.trans hperm')

/-- What is looked up in a list of entries that were each kept or dropped, under their keys. -/
theorem lookup_filterMap {α β : Type} (g : Nat → α → Option β) {entries : List (Nat × α)}
    (h : (entries.map Prod.fst).Nodup) (id : Nat) :
    (entries.filterMap fun e => (g e.1 e.2).map (e.1, ·)).lookup id = (entries.lookup id).bind (g id) := by
  induction entries with
  | nil => rfl
  | cons e rest ih =>
    obtain ⟨hnew, hrest⟩ := nodup_cons.mp h
    rw [lookup_cons_ite]
    by_cases hid : id = e.1
    · rw [if_pos hid, Option.bind_some, hid]
      cases hg : g e.1 e.2 with
      | none =>
        have hnone : rest.lookup id = none := by
          rw [lookup_eq_none_iff]
          refine fun p hp => bne_iff_ne.mpr fun heq => hnew ?_
          rw [← hid, heq]
          exact mem_map_of_mem hp
        rw [filterMap_cons_none (by rw [hg]; rfl), ← hid, ih hrest, hnone, Option.bind_none]
      | some w => rw [filterMap_cons_some (by rw [hg]; rfl), lookup_cons_ite, if_pos rfl]
    · rw [if_neg hid]
      cases hg : g e.1 e.2 with
      | none => rw [filterMap_cons_none (by rw [hg]; rfl), ih hrest]
      | some w => rw [filterMap_cons_some (by rw [hg]; rfl), lookup_cons_ite, if_neg hid, ih hrest]

/-- **A variable is common** if it is found in all successes, and its value is then the union of what is found there. -/
theorem lookup_commonBindings {first : Success} {rest : List Success} (h : (first.bindings.map Prod.fst).Nodup)
    (id : Nat) : (commonBindings first rest).lookup id =
      ((first :: rest).mapM fun x : Success => x.bindings.lookup id).bind Ty.union? := by
  let value (id : Nat) (t : Ty) : Option Ty :=
    (rest.mapM fun x : Success => x.bindings.lookup id).bind fun ts => Ty.union? (t :: ts)
  have hentries : commonBindings first rest = first.bindings.filterMap fun e => (value e.1 e.2).map (e.1, ·) := by
    refine filterMap_congr fun e _ => ?_
    obtain ⟨i, t⟩ := e
    simp only [value, Option.bind_eq_bind]
    generalize (rest.mapM fun x : Success => x.bindings.lookup i) = values
    cases values with
    | none => rfl
    | some ts => cases hunion : Ty.union? (t :: ts) <;> simp [hunion]
  rw [hentries, lookup_filterMap value h, mapM_cons]
  cases first.bindings.lookup id with
  | none => rfl
  | some t => cases hrest : rest.mapM fun x : Success => x.bindings.lookup id <;> simp [value, hrest]

/-- Variables are bound to what is listed for them, unless they are bound already. -/
theorem binding?_accrete {count : Nat} {entries : List (Nat × Ty)} (h : ∀ e ∈ entries, e.1 < s.arena.size) (id : Nat) :
    (accrete level count entries s).arena.binding? id = (s.arena.binding? id).or (entries.lookup id) := by
  induction entries generalizing s with
  | nil => rw [lookup_nil, Option.or_none, accrete]
  | cons e rest ih =>
    obtain ⟨i, t⟩ := e
    obtain ⟨hi, hrest⟩ := forall_mem_cons.mp h
    rw [lookup_cons_ite, accrete]
    generalize hnoted : (s.note .trace fun _ =>
      indent level ++ "accrete: " ++ s.shown t ++ " from " ++ toString count ++ " alternatives") = noted
    have harena : noted.arena = s.arena := by rw [← hnoted]; rfl
    rcases noted.bind_cases i t with ⟨b, hb, -, hafter⟩ | ⟨hrefused, -, hafter⟩
    · rw [harena] at hb
      rw [ih (by rw [hafter, Arena.size_bind hb]; exact hrest), hafter, Arena.binding?_bind hb]
      by_cases hid : id = i
      · rw [if_pos hid, if_pos hid, hid, Arena.unbound_of_bind hb]
        rfl
      · rw [if_neg hid, if_neg hid]
    · rw [harena] at hrefused hafter
      rw [ih (by rw [hafter]; exact hrest), hafter]
      by_cases hid : id = i
      · -- only what is bound already can be refused
        cases hbound : s.arena.binding? id with
        | some u => rfl
        | none =>
          obtain ⟨b, hb⟩ := Arena.bind_of_unbound t hi (hid ▸ hbound)
          exact absurd hb (hrefused b)
      · rw [if_neg hid]

/-- The variables that are bound since are listed once each, and were there before. -/
theorem Arena.Binds.keys_bindingsSince {a b : Arena} (h : a.Binds b) :
    ((b.bindingsSince a.snapshot).map Prod.fst).Nodup ∧ ∀ e ∈ b.bindingsSince a.snapshot, e.1 < a.size := by
  constructor
  · unfold bindingsSince
    rw [map_filterMap]
    refine List.Nodup.filterMap ?_ h.grows.nodup_boundSince
    simp only [Option.mem_def, Option.map_eq_some_iff]
    rintro i j k ⟨-, ⟨u, -, rfl⟩, hi⟩ ⟨-, ⟨w, -, rfl⟩, hj⟩
    exact hi.trans hj.symm
  · rintro ⟨id, t⟩ he
    obtain ⟨-, u, hu, -⟩ := h.mem_bindingsSince.mp he
    exact h.size_eq ▸ lt_size_of_binding? hu

/-- **The order of the successes is irrelevant** to what they have in common. -/
theorem accrete_perm {a : Arena} {first first' : Success} {rest rest' : List Success}
    (hperm : (first :: rest).Perm (first' :: rest'))
    (hsound : ∀ x ∈ first :: rest, ∃ b, a.Binds b ∧ x.bindings = b.bindingsSince a.snapshot) (hs : s.arena = a)
    (hs' : s'.arena = a) (level count count' : Nat) (id : Nat) :
    Option.Rel Ty.Reordered ((accrete level count (commonBindings first rest) s).arena.binding? id)
      ((accrete level count' (commonBindings first' rest') s').arena.binding? id) := by
  have hkeys : ∀ x ∈ first :: rest, (x.bindings.map Prod.fst).Nodup ∧ ∀ e ∈ x.bindings, e.1 < a.size := by
    intro x hx
    obtain ⟨b, hb, hx⟩ := hsound x hx
    rw [hx]
    exact hb.keys_bindingsSince
  have hallocated : ∀ x ∈ first :: rest, ∀ others, ∀ e ∈ commonBindings x others, e.1 < a.size := by
    rintro x hx others ⟨i, t⟩ he
    obtain ⟨u, hu⟩ := (mem_commonBindings he).1 x mem_cons_self
    exact (hkeys x hx).2 (i, u) hu
  have hmem' : first' ∈ first :: rest := hperm.mem_iff.mpr mem_cons_self
  rw [binding?_accrete (hs ▸ hallocated first mem_cons_self rest),
    binding?_accrete (hs' ▸ hallocated first' hmem' rest'), hs, hs',
    lookup_commonBindings (hkeys first mem_cons_self).1, lookup_commonBindings (hkeys first' hmem').1]
  cases a.binding? id with
  | some t => exact Ty.reordered_refl (some t)
  | none =>
    have hvalues := mapM_perm (f := fun x : Success => x.bindings.lookup id) hperm
    generalize (first :: rest).mapM (fun x : Success => x.bindings.lookup id) = vs at hvalues
    generalize (first' :: rest').mapM (fun x : Success => x.bindings.lookup id) = ws at hvalues
    cases hvalues with
    | none => exact .none
    | some hperm => exact Ty.union?_perm hperm

/-! ## The order of alternatives -/

section Order

variable {attempt : Attempt} (hblind : attempt.Blind)
  (hbinds : ∀ t s ok s', attempt t s = some (ok, s') → s.arena.Binds s'.arena)
include hblind hbinds

/-- **Alternatives in another order** lead to the same answer and the same bindings, up to the order of members. -/
theorem compareAlternatives_perm {alternatives' : List Ty} {after after' : Store} {ok ok' : Bool}
    (hperm : alternatives.Perm alternatives') (h : compareAlternatives attempt level alternatives s = some (ok, after))
    (h' : compareAlternatives attempt level alternatives' s = some (ok', after')) :
    ok' = ok ∧ ∀ id, Option.Rel Ty.Reordered (after.arena.binding? id) (after'.arena.binding? id) := by
  unfold compareAlternatives at h h'
  obtain ⟨⟨search, s₁⟩, hsearch, h⟩ := Option.bind_eq_some_iff.mp h
  obtain ⟨⟨search', s₁'⟩, hsearch', h'⟩ := Option.bind_eq_some_iff.mp h'
  obtain ⟨hs₁, hfrom⟩ := tryAlternatives_spec hbinds hsearch
  obtain ⟨hs₁', -⟩ := tryAlternatives_spec hbinds hsearch'
  have hsame : s₁'.arena = s₁.arena := hs₁'.trans hs₁.symm
  have hfinds := tryAlternatives_finds hblind hbinds (s := s) rfl hsearch
  have hfinds' := tryAlternatives_finds hblind hbinds (s := s) rfl hsearch'
  rcases hfinds with ⟨rfl, t, ht, done, hdone, harena⟩ | ⟨rfl, hunsettled⟩
  · rcases hfinds' with ⟨rfl, -⟩ | ⟨-, hunsettled'⟩
    · cases h
      cases h'
      exact ⟨rfl, fun id => hsame ▸ Ty.reordered_refl _⟩
    · exact absurd harena (hunsettled' t (hperm.mem_iff.mp ht) done hdone)
  · rcases hfinds' with ⟨-, t, ht, done, hdone, harena⟩ | ⟨rfl, -⟩
    · exact absurd harena (hunsettled t (hperm.mem_iff.mpr ht) done hdone)
    · have hfound := hperm.filterMap (attempt.success? s)
      have hsound : ∀ x ∈ alternatives.filterMap (attempt.success? s),
          ∃ b, s.arena.Binds b ∧ x.bindings = b.bindingsSince s.arena.snapshot := by
        intro x hx
        obtain ⟨-, before, done, hbefore, hdone, hbindings⟩ := hfrom x hx
        exact ⟨done.arena, hbefore ▸ hbinds _ _ _ _ hdone, hbindings⟩
      generalize alternatives.filterMap (attempt.success? s) = xs at h hfound hsound
      generalize alternatives'.filterMap (attempt.success? s) = ys at h' hfound
      cases xs with
      | nil =>
        obtain rfl := nil_perm.mp hfound
        cases h
        cases h'
        exact ⟨rfl, fun id => hsame ▸ Ty.reordered_refl _⟩
      | cons first rest =>
        cases rest with
        | nil =>
          -- the only success is carried out
          obtain rfl := singleton_perm.mp hfound
          obtain ⟨done, hdone, harena⟩ := hblind first.alternative s₁ s₁' hsame ok after h
          cases hdone.symm.trans h'
          exact ⟨rfl, fun id => harena ▸ Ty.reordered_refl _⟩
        | cons second rest =>
          cases ys with
          | nil => exact absurd hfound.length_eq (by simp)
          | cons first' rest' =>
            cases rest' with
            | nil => exact absurd hfound.length_eq (by simp)
            | cons second' rest' =>
              cases h
              cases h'
              exact ⟨rfl, accrete_perm hfound hsound hs₁ hs₁' level _ _⟩

end Order

/-- **The order of alternatives is irrelevant.** A target is compared with alternatives; `pair` puts an alternative and
    the target on their sides, and what compares them answers as the recursion does, however deep it may go. If the
    comparison is made with the alternatives in two orders and comes to an end in both, it gives the same answer. The
    same variables are bound, to values that are the same up to the order of the members of a union. -/
theorem order_of_alternatives_is_irrelevant {defs : Definitions} {next next' : Comparison}
    (hnext : next.Limit (unfolded defs)) (hnext' : next'.Limit (unfolded defs)) (pair : Ty → Ty × Ty)
    {alternatives alternatives' : List Ty} (hperm : alternatives.Perm alternatives') {level : Nat}
    {s after after' : Store} {ok ok' : Bool}
    (h : compareAlternatives (fun t => next (pair t).1 (pair t).2 (level + 1)) level alternatives s = some (ok, after))
    (h' : compareAlternatives (fun t => next' (pair t).1 (pair t).2 (level + 1)) level alternatives' s =
      some (ok', after')) :
    ok' = ok ∧ ∀ id, Option.Rel Ty.Reordered (after.arena.binding? id) (after'.arena.binding? id) := by
  let attempts (n : Nat) : Attempt := fun t => unfolded defs n (pair t).1 (pair t).2 (level + 1)
  have hdeep : ∀ᶠ n in atTop, compareAlternatives (attempts n) level alternatives s = some (ok, after) :=
    compareAlternatives_tends (fun t s out ht => hnext _ _ _ s out ht) h
  have hdeep' : ∀ᶠ n in atTop, compareAlternatives (attempts n) level alternatives' s = some (ok', after') :=
    compareAlternatives_tends (fun t s out ht => hnext' _ _ _ s out ht) h'
  -- at one depth that is enough for both
  obtain ⟨n, hn, hn'⟩ := (hdeep.and hdeep').exists
  exact compareAlternatives_perm (fun t => unfolded_blind defs n _ _ _) (fun t => unfolded_binds defs n _ _ _) hperm
    hn hn'

/-- A function of a variable meets functions of `String` and of `Double`, both of which it can be: the variable becomes
    the union of the two, in the order in which they come. -/
theorem order_of_alternatives_is_irrelevant_accreting :
    let c := (Context.new "main" false).fresh.2
    let target : Ty := .func (.var ⟨2, "t2"⟩) .integer
    let run (n : Nat) (alternatives : List Ty) :=
      compareAlternatives (fun t => compareWithin c.definitions n target t 1) 0 alternatives c.store
    ∃ ok after ok' after', run 3 [.func .string .integer, .func .double .integer] = some (ok, after) ∧
      run 4 [.func .double .integer, .func .string .integer] = some (ok', after') ∧ ok' = ok ∧
      (∀ id, Option.Rel Ty.Reordered (after.arena.binding? id) (after'.arena.binding? id)) ∧
      after.arena.binding? 2 = some (.union [.string, .double]) ∧
      after'.arena.binding? 2 = some (.union [.double, .string]) := by
  intro c target run
  have hfirst : ((run 3 [.func .string .integer, .func .double .integer]).map
      fun out => out.2.arena.binding? 2) = some (some (.union [.string, .double])) := by decide +kernel
  have hsecond : ((run 4 [.func .double .integer, .func .string .integer]).map
      fun out => out.2.arena.binding? 2) = some (some (.union [.double, .string])) := by decide +kernel
  obtain ⟨⟨ok, after⟩, hrun, hbinding⟩ := Option.map_eq_some_iff.mp hfirst
  obtain ⟨⟨ok', after'⟩, hrun', hbinding'⟩ := Option.map_eq_some_iff.mp hsecond
  obtain ⟨hok, hsame⟩ := order_of_alternatives_is_irrelevant (compareWithin_unfolds c.definitions 3)
    (compareWithin_unfolds c.definitions 4) (fun t => (target, t)) (List.Perm.swap _ _ _) hrun hrun'
  exact ⟨ok, after, ok', after', hrun, hrun', hok, hsame, hbinding, hbinding'⟩

end UnionTyping
