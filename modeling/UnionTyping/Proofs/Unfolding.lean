import UnionTyping.Proofs.Termination
import Mathlib.Order.Filter.AtTopBot.Basic

/-!
# `Proofs.Unfolding` — the recursion behind a comparison

A comparison is meant to be the recursion `compare = compareStep defs compare`. What runs counts its depth in
two ways, and those counts appear in no specification. This file removes them. `unfolded defs n` is the recursion
cut off below the depth `n`, with nothing else in it; whatever `compareWithin` answers is what all deep enough
unfoldings answer (`compareWithin_unfolds`). So an answer does not depend on how the depth is counted, and where
there is one the recursion ends by itself.

One step asks for finitely many further comparisons, and that is the whole argument: if each of them is answered
alike from some depth on, then all of them are from the largest of these depths on (`compareStep_tends`).
-/

namespace UnionTyping

open Filter

/-- **The recursion cut off at a depth.** No answer means that the depth was not enough. -/
def unfolded (defs : Definitions) : (depth : Nat) → Comparison
  | 0 => fun _ _ _ _ => none
  | depth + 1 => compareStep defs (unfolded defs depth)

/-- **The stages tend to a comparison**: each of its answers is that of all stages but finitely many. -/
def Comparison.Limit (compare : Comparison) (stages : Nat → Comparison) : Prop :=
  ∀ l r level s out, compare l r level s = some out → ∀ᶠ n in atTop, stages n l r level s = some out

/-! ## One step -/

variable {s : Store} {stages : Nat → Comparison} {next : Comparison}

theorem compareAll_tends (h : next.Limit stages) {level : Nat} {verdict : Bool} {pairs : List (Ty × Ty)}
    {out : Bool × Store} (hrun : compareAll next level verdict pairs s = some out) :
    ∀ᶠ n in atTop, compareAll (stages n) level verdict pairs s = some out := by
  induction pairs generalizing s with
  | nil => exact Eventually.of_forall fun _ => hrun
  | cons p ps ih =>
    unfold compareAll at hrun
    obtain ⟨⟨ok, s₁⟩, hfirst, hrest⟩ := Option.bind_eq_some_iff.mp hrun
    cases ok with
    | false =>
      filter_upwards [h _ _ _ _ _ hfirst] with n hn
      unfold compareAll
      rw [hn]
      exact hrest
    | true =>
      filter_upwards [h _ _ _ _ _ hfirst, ih hrest] with n hn hmore
      unfold compareAll
      rw [hn]
      exact hmore

section Alternatives

variable {attempts : Nat → Attempt} {attempt : Attempt}
  (h : ∀ t s out, attempt t s = some out → ∀ᶠ n in atTop, attempts n t s = some out)
include h

theorem tryAlternatives_tends {alternatives : List Ty} {out : Search × Store}
    (hrun : tryAlternatives attempt alternatives s = some out) :
    ∀ᶠ n in atTop, tryAlternatives (attempts n) alternatives s = some out := by
  induction alternatives generalizing s out with
  | nil => exact Eventually.of_forall fun _ => hrun
  | cons t rest ih =>
    unfold tryAlternatives at hrun
    obtain ⟨⟨ok, tried⟩, htried, hrun⟩ := Option.bind_eq_some_iff.mp hrun
    simp only [] at hrun
    split at hrun
    · -- settled at once
      rename_i hsettled
      filter_upwards [h _ _ _ htried] with n hn
      unfold tryAlternatives
      simp only [hn, Option.bind_eq_bind, Option.bind_some, if_pos hsettled]
      exact hrun
    · rename_i hsettled
      obtain ⟨⟨search, s₁⟩, hmore, hrun⟩ := Option.bind_eq_some_iff.mp hrun
      filter_upwards [h _ _ _ htried, ih hmore] with n hn hrest
      unfold tryAlternatives
      simp only [hn, Option.bind_eq_bind, Option.bind_some, if_neg hsettled, hrest]
      exact hrun

theorem compareAlternatives_tends {level : Nat} {alternatives : List Ty} {out : Bool × Store}
    (hrun : compareAlternatives attempt level alternatives s = some out) :
    ∀ᶠ n in atTop, compareAlternatives (attempts n) level alternatives s = some out := by
  unfold compareAlternatives at hrun
  obtain ⟨⟨search, s₁⟩, hsearch, hrun⟩ := Option.bind_eq_some_iff.mp hrun
  have htries := tryAlternatives_tends h hsearch
  -- the only success is tried once more, so there is one more answer to wait for
  have hlast : ∀ᶠ n in atTop, ∀ only, search = .found [only] → attempts n only.alternative s₁ = some out := by
    by_cases honly : ∃ only, search = .found [only]
    · obtain ⟨only, rfl⟩ := honly
      filter_upwards [h _ _ _ hrun] with n hn
      intro success hsuccess
      cases hsuccess
      exact hn
    · exact Eventually.of_forall fun n only hfound => absurd ⟨only, hfound⟩ honly
  filter_upwards [htries, hlast] with n hn hn'
  unfold compareAlternatives
  simp only [hn, Option.bind_eq_bind, Option.bind_some]
  match search, hrun, hn' with
  | .settled, hrun, _ => exact hrun
  | .found [], hrun, _ => exact hrun
  | .found [only], _, hn' => exact hn' only rfl
  | .found (first :: second :: rest), hrun, _ => exact hrun

end Alternatives

/-- **One step asks finitely many questions**, so its answers are those of steps that go on with a late stage. -/
theorem compareStep_tends (defs : Definitions) (h : next.Limit stages) :
    (compareStep defs next).Limit fun n => compareStep defs (stages n) := by
  intro l r level s out hrun
  unfold compareStep at hrun
  extract_lets left right noted at hrun
  split at hrun
  · rename_i hequal
    refine Eventually.of_forall fun n => ?_
    show (if noted.arena.equivalent left right then some (true, noted) else _) = some out
    rw [if_pos hequal]
    exact hrun
  · rename_i hequal
    obtain ⟨⟨ok, after⟩, hcases, hrun⟩ := Option.bind_eq_some_iff.mp hrun
    have hstep : ∀ᶠ n in atTop, compareCases defs (stages n) left right level noted = some (ok, after) := by
      simp only [compareCases_eq_run] at hcases ⊢
      cases hplan : plan defs noted.arena left right with
      | decide verdict =>
        rw [hplan] at hcases
        exact Eventually.of_forall fun _ => hcases
      | bind v t =>
        rw [hplan] at hcases
        exact Eventually.of_forall fun _ => hcases
      | all pairs verdict =>
        rw [hplan] at hcases
        exact compareAll_tends h hcases
      | any pair alternatives =>
        rw [hplan] at hcases
        exact compareAlternatives_tends (fun t s out ht => h _ _ _ s out ht) hcases
    filter_upwards [hstep] with n hn
    show (if noted.arena.equivalent left right then some (true, noted) else _) = some out
    rw [if_neg hequal, hn]
    exact hrun

/-! ## Whole comparisons -/

variable {defs : Definitions}

/-- A step onto the recursion is the recursion again. -/
theorem unfolded_tends {compare : Comparison} (h : compare.Limit fun n => compareStep defs (unfolded defs n)) :
    compare.Limit (unfolded defs) := by
  intro l r level s out hrun
  obtain ⟨bound, hbound⟩ := eventually_atTop.mp (h l r level s out hrun)
  refine eventually_atTop.mpr ⟨bound + 1, fun n hn => ?_⟩
  obtain ⟨m, rfl⟩ : ∃ m, n = m + 1 := ⟨n - 1, by omega⟩
  exact hbound m (by omega)

theorem compareAt_unfolds {lower : Comparison} (hlower : lower.Limit (unfolded defs)) (unbound depth : Nat) :
    (compareAt defs lower unbound depth).Limit (unfolded defs) := by
  induction depth with
  | zero =>
    intro l r level s out hrun
    cases hrun
  | succ depth ih =>
    refine unfolded_tends (compareStep_tends defs fun l r level s out hrun => ?_)
    split at hrun
    · exact hlower l r level s out hrun
    · exact ih l r level s out hrun

/-- **What is answered under the two counts is what the recursion answers.** -/
theorem compareWithin_unfolds (defs : Definitions) (unbound : Nat) :
    (compareWithin defs unbound).Limit (unfolded defs) := by
  have hnever : Comparison.Limit (fun _ _ _ _ => none) (unfolded defs) := by
    intro l r level s out hrun
    cases hrun
  induction unbound with
  | zero =>
    intro l r level s out hrun
    exact compareAt_unfolds hnever 0 _ l r level s out hrun
  | succ unbound ih =>
    intro l r level s out hrun
    exact compareAt_unfolds ih (unbound + 1) _ l r level s out hrun

/-- **How a unification that is not given up ends**: as the recursion does, from some depth on. -/
theorem unify_unfolds {l r : Ty} (h : (s.unify defs l r).1 ≠ .endless) :
    ∃ ok after, (∀ᶠ n in atTop, unfolded defs n l r 0 s = some (ok, after)) ∧
      s.unify defs l r = if ok then (.unified, after) else (.mismatch, after.rollback s.arena.snapshot) := by
  unfold Store.unify at h ⊢
  cases hrun : compareWithin defs s.arena.unboundCount l r 0 s with
  | none =>
    rw [hrun] at h
    exact absurd rfl h
  | some out =>
    obtain ⟨ok, after⟩ := out
    refine ⟨ok, after, compareWithin_unfolds defs _ l r 0 s _ hrun, ?_⟩
    cases ok <;> rfl

end UnionTyping
