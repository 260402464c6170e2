import Mathlib.Logic.Relation
import Mathlib.Data.List.Induction
import Mathlib.Data.List.Nodup
import Mathlib.Data.List.Pairwise
import Mathlib.Data.List.Perm.Subperm
import Mathlib.Order.WellFounded
import UnionTyping.Dependency.Groups
import UnionTyping.Proofs.Tracking

/-!
# `Proofs.Grouping` — the groups are the strongly connected components, in dependency order

The traversal of the graph is a closure that is complete after as many steps as there are entries
(`mem_reach`), so `cycleOf` is a strongly connected component of what is left. What is resolved never needs
what is left (`Unresolved.upward`), so the components of what is left are components of the whole relation,
and one of them needs nothing outside itself (`exists_closed_cycle`). Each round therefore resolves whole
components that need nothing but themselves (`groupsWithin_round`), and at least one entry: no round breaks off.
-/

namespace UnionTyping

open List

namespace Dependency

open Relation

variable {α : Type} [LinearOrder α] {R : α → α → Prop}

namespace Graph

/-! ## Traversal -/

omit [LinearOrder α] in
/-- Adding to a list, key by key, what each key contributes. -/
theorem mem_foldl_step {step : List α → α → List α} {P : α → α → Prop}
    (hstep : ∀ acc a b, b ∈ step acc a ↔ b ∈ acc ∨ P a b) {ks acc : List α} {b : α} :
    b ∈ ks.foldl step acc ↔ b ∈ acc ∨ ∃ a ∈ ks, P a b := by
  induction ks generalizing acc with
  | nil => simp
  | cons k rest ih => rw [foldl_cons, ih, hstep, or_assoc, exists_mem_cons_iff]

/-- The edges of the graph along which a traversal goes. -/
def Edge (g : Graph α) (edges : Node α → List α) (a b : α) : Prop :=
  b ∈ g.keys ∧ ∃ n, g.get? a = some n ∧ b ∈ edges n

variable {g : Graph α} {edges : Node α → List α} {steps : Nat} {seen : List α} {a b : α}

theorem mem_expand : b ∈ g.expand edges seen ↔ b ∈ seen ∨ ∃ a ∈ seen, g.Edge edges a b := by
  rw [expand]
  refine mem_foldl_step fun acc a b => ?_
  rw [Edge]
  cases hget : g.get? a with
  | none => simp
  | some n =>
    have hinsert : ∀ (acc : List α) (a b : α), b ∈ insertKey a acc ↔ b ∈ acc ∨ b = a :=
      fun acc a b => mem_insertKey.trans or_comm
    dsimp only
    rw [mem_foldl_step hinsert]
    simp [contains_iff, and_comm]

theorem expand_ascending (h : seen.Pairwise (· < ·)) : (g.expand edges seen).Pairwise (· < ·) := by
  rw [expand]
  refine List.foldlRecOn seen _ h fun acc hacc a _ => ?_
  cases g.get? a with
  | none => exact hacc
  | some n => exact List.foldlRecOn _ _ hacc fun acc hacc b _ => insertKey_ascending hacc

theorem closure_ascending (h : seen.Pairwise (· < ·)) : (g.closure edges steps seen).Pairwise (· < ·) := by
  induction steps generalizing seen with
  | zero => exact h
  | succ steps ih => exact ih (expand_ascending h)

theorem subset_closure : seen ⊆ g.closure edges steps seen := by
  induction steps generalizing seen with
  | zero => exact List.Subset.refl _
  | succ steps ih => exact fun a ha => ih (mem_expand.mpr (Or.inl ha))

/-- Whatever is found is reached. -/
theorem closure_sound (hb : b ∈ g.closure edges steps seen) : ∃ a ∈ seen, ReflTransGen (g.Edge edges) a b := by
  induction steps generalizing seen with
  | zero => exact ⟨b, hb, .refl⟩
  | succ steps ih =>
    obtain ⟨c, hc, hcb⟩ := ih hb
    rcases mem_expand.mp hc with hc | ⟨a, ha, hac⟩
    · exact ⟨c, hc, hcb⟩
    · exact ⟨a, ha, hcb.head hac⟩

/-- No edge leads out of the keys. -/
def Saturated (g : Graph α) (edges : Node α → List α) (seen : List α) : Prop :=
  ∀ a ∈ seen, ∀ b, g.Edge edges a b → b ∈ seen

theorem Saturated.mem_of_reaches (h : g.Saturated edges seen) (ha : a ∈ seen)
    (hab : ReflTransGen (g.Edge edges) a b) : b ∈ seen := by
  induction hab with
  | refl => exact ha
  | tail _ hedge ih => exact h _ ih _ hedge

theorem Saturated.closure (h : g.Saturated edges seen) : g.Saturated edges (g.closure edges steps seen) := by
  intro a ha b hab
  obtain ⟨c, hc, hca⟩ := closure_sound ha
  exact subset_closure (h.mem_of_reaches hc (hca.tail hab))

/-- A traversal that is not complete has found something new at every step. -/
theorem saturated_or_longer (h : seen.Pairwise (· < ·)) :
    g.Saturated edges (g.closure edges steps seen) ∨ seen.length + steps ≤ (g.closure edges steps seen).length := by
  induction steps generalizing seen with
  | zero => exact Or.inr (Nat.le_refl _)
  | succ steps ih =>
    by_cases hsat : g.Saturated edges seen
    · exact Or.inl hsat.closure
    · refine (ih (expand_ascending h)).imp id fun hle => ?_
      simp only [Saturated, not_forall] at hsat
      obtain ⟨a, ha, b, hab, hb⟩ := hsat
      have hsub : b :: seen ⊆ g.expand edges seen := by
        rintro c (_ | ⟨_, hc⟩)
        · exact mem_expand.mpr (Or.inr ⟨a, ha, hab⟩)
        · exact mem_expand.mpr (Or.inl hc)
      have hnodup : (b :: seen).Nodup := nodup_cons.mpr ⟨hb, h.nodup⟩
      have hlonger : seen.length + 1 ≤ (g.expand edges seen).length :=
        (List.Nodup.subperm hnodup hsub).length_le
      rw [closure]
      omega

theorem reach_ascending {key : α} : (g.reach edges key).Pairwise (· < ·) :=
  closure_ascending (pairwise_singleton _ _)

/-- **A traversal finds exactly what the edges lead to.** -/
theorem mem_reach {key b : α} (hkey : key ∈ g.keys) : b ∈ g.reach edges key ↔ ReflTransGen (g.Edge edges) key b := by
  constructor
  · intro hb
    obtain ⟨a, ha, hab⟩ := closure_sound hb
    rwa [mem_singleton.mp ha] at hab
  · have hsub : g.reach edges key ⊆ g.keys := by
      intro c hc
      obtain ⟨a, ha, hac⟩ := closure_sound hc
      rcases ReflTransGen.cases_tail hac with rfl | ⟨_, _, hlast⟩
      · rwa [mem_singleton.mp ha]
      · exact hlast.1
    have hle : (g.reach edges key).length ≤ g.size := by
      rw [size, ← length_map (f := Prod.fst)]
      exact (List.Nodup.subperm reach_ascending.nodup hsub).length_le
    have hcomplete : g.Saturated edges (g.reach edges key) ∨ [key].length + g.size ≤ (g.reach edges key).length :=
      saturated_or_longer (pairwise_singleton _ _)
    rcases hcomplete with hsat | hlonger
    · exact hsat.mem_of_reaches (subset_closure (mem_singleton_self key))
    · rw [length_singleton] at hlonger
      omega

/-! ## Components of what is left -/

/-- **What is left to resolve**: the graph tracks the relation, and what is resolved needs none of it. -/
structure Unresolved (g : Graph α) (R : α → α → Prop) : Prop extends g.Tracks R where
  upward : ∀ {a b}, R a b → b ∈ g.keys → a ∈ g.keys

theorem Tracks.edge_needs (hg : g.Tracks R) : g.Edge Node.needs a b ↔ a ∈ g.keys ∧ b ∈ g.keys ∧ R a b := by
  obtain ⟨-, hneeds, -⟩ := tracks_iff.mp hg
  constructor
  · rintro ⟨hb, hab⟩
    have ha := Needs.mem_keys hab
    exact ⟨ha, hb, (hneeds a ha b).mp hab⟩
  · rintro ⟨ha, hb, hab⟩
    exact ⟨hb, (hneeds a ha b).mpr hab⟩

theorem Tracks.edge_neededBy (hg : g.Tracks R) :
    g.Edge Node.neededBy a b ↔ a ∈ g.keys ∧ b ∈ g.keys ∧ R b a := by
  obtain ⟨-, -, hawaits⟩ := tracks_iff.mp hg
  constructor
  · rintro ⟨hb, hba⟩
    have ha := Awaits.mem_keys hba
    exact ⟨ha, hb, (hawaits a ha b).mp hba⟩
  · rintro ⟨ha, hb, hba⟩
    exact ⟨hb, (hawaits a ha b).mpr hba⟩

theorem Unresolved.upward_path (hg : g.Unresolved R) (hab : ReflTransGen R a b)
    (hb : b ∈ g.keys) : a ∈ g.keys := by
  induction hab using ReflTransGen.head_induction_on with
  | refl => exact hb
  | head hac _ ih => exact hg.upward hac ih

theorem Unresolved.mem_reach_needs (hg : g.Unresolved R) (ha : a ∈ g.keys) (hb : b ∈ g.keys) :
    b ∈ g.reach Node.needs a ↔ ReflTransGen R a b := by
  rw [mem_reach ha]
  constructor
  · intro hab
    induction hab with
    | refl => exact .refl
    | tail _ hlast ih =>
      obtain ⟨hc, -, hcb⟩ := hg.edge_needs.mp hlast
      exact (ih hc).tail hcb
  · intro hab
    induction hab with
    | refl => exact .refl
    | tail _ hlast ih =>
      have hc := hg.upward hlast hb
      exact (ih hc).tail (hg.edge_needs.mpr ⟨hc, hb, hlast⟩)

theorem Unresolved.mem_reach_neededBy (hg : g.Unresolved R) (ha : a ∈ g.keys) :
    b ∈ g.reach Node.neededBy a ↔ ReflTransGen R b a := by
  rw [mem_reach ha]
  constructor
  · intro hab
    induction hab with
    | refl => exact .refl
    | tail _ hlast ih => exact ih.head (hg.edge_neededBy.mp hlast).2.2
  · intro hba
    induction hba using ReflTransGen.head_induction_on with
    | refl => exact .refl
    | head hbc hca ih =>
      have hc := hg.upward_path hca ha
      exact ih.tail (hg.edge_neededBy.mpr ⟨hc, hg.upward hbc hc, hbc⟩)

/-- **A cycle is a strongly connected component.** -/
theorem Unresolved.mem_cycleOf (hg : g.Unresolved R) (ha : a ∈ g.keys) :
    b ∈ g.cycleOf a ↔ ReflTransGen R a b ∧ ReflTransGen R b a := by
  rw [cycleOf, mem_filter, contains_iff_mem, hg.mem_reach_neededBy ha]
  constructor
  · rintro ⟨hab, hba⟩
    exact ⟨(hg.mem_reach_needs ha (hg.upward_path hba ha)).mp hab, hba⟩
  · rintro ⟨hab, hba⟩
    exact ⟨(hg.mem_reach_needs ha (hg.upward_path hba ha)).mpr hab, hba⟩

/-- What the members of a closed list need, as far as it is left, is in the list. -/
theorem isClosed_iff_needs {cycle : List α} :
    g.isClosed cycle = true ↔ ∀ a ∈ cycle, ∀ b ∈ g.keys, g.Needs a b → b ∈ cycle := by
  rw [isClosed, all_eq_true]
  refine forall₂_congr fun a _ => ?_
  cases ha : g.get? a with
  | none => simp [Needs, ha]
  | some n =>
    simp only [needs_iff ha, all_eq_true, mem_filter, contains_iff, contains_iff_mem]
    exact ⟨fun h b hb hab => h b ⟨hab, hb⟩, fun h b hb => h b hb.2 hb.1⟩

theorem Tracks.isClosed_iff (hg : g.Tracks R) {cycle : List α} (hcycle : cycle ⊆ g.keys) :
    g.isClosed cycle = true ↔ ∀ a ∈ cycle, ∀ b ∈ g.keys, R a b → b ∈ cycle := by
  rw [isClosed_iff_needs]
  refine forall₂_congr fun a ha => forall₂_congr fun b _ => ?_
  rw [(tracks_iff.mp hg).2.1 a (hcycle ha)]

theorem Unresolved.cycleOf_subset (hg : g.Unresolved R) (ha : a ∈ g.keys) : g.cycleOf a ⊆ g.keys :=
  fun _ hb => hg.upward_path ((hg.mem_cycleOf ha).mp hb).2 ha

/-- **Some component needs nothing outside itself**: that of an entry which leads to the fewest entries. -/
theorem Unresolved.exists_closed_cycle (hg : g.Unresolved R) {start : α} (hstart : start ∈ g.keys) :
    ∃ a ∈ g.keys, g.isClosed (g.cycleOf a) = true := by
  obtain ⟨a, ha, hleast⟩ :=
    (measure fun a => (g.reach Node.needs a).length).wf.has_min {a | a ∈ g.keys} ⟨start, hstart⟩
  refine ⟨a, ha, (hg.isClosed_iff (hg.cycleOf_subset ha)).mpr fun b hb c hc hbc => ?_⟩
  obtain ⟨hab, -⟩ := (hg.mem_cycleOf ha).mp hb
  have hac : ReflTransGen R a c := hab.tail hbc
  -- `c` leads to no more than `a` does, hence to all of it, and so back to `a`
  have hsub : g.reach Node.needs c ⊆ g.reach Node.needs a := by
    intro d hd
    have hdkeys : d ∈ g.keys := by
      rcases ReflTransGen.cases_tail ((mem_reach hc).mp hd) with rfl | ⟨_, _, hlast⟩
      · exact hc
      · exact hlast.1
    rw [hg.mem_reach_needs hc hdkeys] at hd
    exact (hg.mem_reach_needs ha hdkeys).mpr (hac.trans hd)
  have hfewest : (g.reach Node.needs a).length ≤ (g.reach Node.needs c).length :=
    not_lt.mp (hleast c hc)
  have hsame := (List.Nodup.subperm reach_ascending.nodup hsub).perm_of_length_le hfewest
  have hca : ReflTransGen R c a :=
    (hg.mem_reach_needs hc ha).mp (hsame.mem_iff.mpr ((hg.mem_reach_needs ha ha).mpr .refl))
  exact (hg.mem_cycleOf ha).mpr ⟨hac, hca⟩

theorem Unresolved.nextCycle (hg : g.Unresolved R) {start : α} (hstart : start ∈ g.keys) :
    ∃ a ∈ g.keys, g.nextCycle? = some (g.cycleOf a) ∧ ∀ b ∈ g.cycleOf a, ∀ c ∈ g.keys, R b c → c ∈ g.cycleOf a := by
  obtain ⟨a, ha, hclosed⟩ := hg.exists_closed_cycle hstart
  obtain ⟨cycle, hfound⟩ : ∃ cycle, g.nextCycle? = some cycle :=
    Option.isSome_iff_exists.mp (find?_isSome.mpr ⟨g.cycleOf a, mem_map.mpr ⟨a, ha, rfl⟩, hclosed⟩)
  obtain ⟨b, hb, rfl⟩ := mem_map.mp (mem_of_find?_eq_some hfound)
  exact ⟨b, hb, hfound, (hg.isClosed_iff (hg.cycleOf_subset hb)).mp (find?_some hfound)⟩

/-! ## Resolving entries that need nothing but each other -/

theorem mem_keys_resolveAll {ks : List α} : a ∈ (ks.foldl resolve g).keys ↔ a ∈ g.keys ∧ a ∉ ks := by
  induction ks generalizing g with
  | nil => simp
  | cons k rest ih => rw [foldl_cons, ih, mem_keys_resolve, mem_cons, not_or, and_assoc]

theorem ascending_resolveAll (hg : g.keys.Pairwise (· < ·)) (ks : List α) :
    (ks.foldl resolve g).keys.Pairwise (· < ·) := by
  induction ks generalizing g with
  | nil => exact hg
  | cons k rest ih =>
    refine ih ?_
    rw [keys_resolve]
    exact hg.filter _

theorem Tracks.resolveAll (hg : g.Tracks R) (ks : List α) : (ks.foldl Graph.resolve g).Tracks R := by
  induction ks generalizing g with
  | nil => exact hg
  | cons k rest ih => exact ih (hg.resolve k)

theorem Unresolved.resolveAll (hg : g.Unresolved R) {ks : List α}
    (hks : ∀ a ∈ ks, ∀ b ∈ g.keys, R a b → b ∈ ks) : (ks.foldl resolve g).Unresolved R where
  toTracks := hg.toTracks.resolveAll ks
  upward := by
    intro a b hab hb
    obtain ⟨hbkeys, hbks⟩ := mem_keys_resolveAll.mp hb
    exact mem_keys_resolveAll.mpr ⟨hg.upward hab hbkeys, fun ha => hbks (hks a ha b hbkeys hab)⟩

theorem size_resolveAll_lt (hg : g.keys.Pairwise (· < ·)) {ks : List α} (hks : ks ⊆ g.keys) (hne : ks ≠ []) :
    (ks.foldl resolve g).size < g.size := by
  obtain ⟨a, ha⟩ := exists_mem_of_ne_nil ks hne
  have hnodup := (ascending_resolveAll hg ks).nodup
  have hsub : a :: (ks.foldl resolve g).keys ⊆ g.keys := by
    rintro b (_ | ⟨_, hb⟩)
    · exact hks ha
    · exact (mem_keys_resolveAll.mp hb).1
  have hfresh : a ∉ (ks.foldl resolve g).keys := fun h => (mem_keys_resolveAll.mp h).2 ha
  have hle := (List.Nodup.subperm (nodup_cons.mpr ⟨hfresh, hnodup⟩) hsub).length_le
  rw [length_cons, keys, keys, length_map, length_map] at hle
  exact hle

/-- An entry is ready when nothing that it needs is left. -/
theorem Tracks.mem_ready (hg : g.Tracks R) : a ∈ g.ready ↔ a ∈ g.keys ∧ ∀ b ∈ g.keys, ¬R a b := by
  obtain ⟨hcounted, -, hawaits⟩ := tracks_iff.mp hg
  rw [hcounted.mem_ready]
  refine and_congr_right fun _ => ⟨fun h b hb hab => ?_, fun h b hab => ?_⟩
  · exact h b ((hawaits b hb a).mpr hab)
  · exact h b hab.mem_keys ((hawaits b hab.mem_keys a).mp hab)

theorem ready_ascending (hg : g.keys.Pairwise (· < ·)) : g.ready.Pairwise (· < ·) :=
  hg.sublist (filter_sublist.map Prod.fst)

/-! ## Arranging a relation in groups -/

/-- **The groups arrange the keys by the relation**: they are its strongly connected components, each once
    and in ascending order, and no group needs a later one. -/
structure Arranges (R : α → α → Prop) (keys : α → Prop) (groups : List (List α)) : Prop where
  covers : ∀ a, a ∈ groups.flatten ↔ keys a
  once : groups.flatten.Nodup
  inhabited : ∀ group ∈ groups, group ≠ []
  components : ∀ group ∈ groups, ∀ a ∈ group, ∀ b,
    b ∈ group ↔ ReflTransGen R a b ∧ ReflTransGen R b a
  ordered : groups.Pairwise fun earlier later => ∀ a ∈ earlier, ∀ b ∈ later, ¬R a b
  ascending : ∀ group ∈ groups, group.Pairwise (· < ·)

theorem arranges_nil (hg : g.keys = []) : Arranges R (· ∈ g.keys) [] where
  covers a := by simp [hg]
  once := nodup_nil
  inhabited _ h := by cases h
  components _ h := by cases h
  ordered := List.Pairwise.nil
  ascending _ h := by cases h

/-- Groups of entries that need nothing but each other come before the groups of the others. -/
theorem Arranges.append {ks : List α} {first rest : List (List α)} (hfirst : Arranges R (· ∈ ks) first)
    (hrest : Arranges R (· ∈ (ks.foldl resolve g).keys) rest) (hsub : ks ⊆ g.keys)
    (hks : ∀ a ∈ ks, ∀ b ∈ g.keys, R a b → b ∈ ks) : Arranges R (· ∈ g.keys) (first ++ rest) := by
  -- a key of the first groups and a key of the others
  have hleft : ∀ {group a}, group ∈ first → a ∈ group → a ∈ ks := by
    intro group a hgroup ha
    exact (hfirst.covers a).mp (mem_flatten.mpr ⟨group, hgroup, ha⟩)
  have hright : ∀ {group a}, group ∈ rest → a ∈ group → a ∈ g.keys ∧ a ∉ ks := by
    intro group a hgroup ha
    exact mem_keys_resolveAll.mp ((hrest.covers a).mp (mem_flatten.mpr ⟨group, hgroup, ha⟩))
  constructor
  case covers =>
    intro a
    rw [flatten_append, mem_append, hfirst.covers, hrest.covers, mem_keys_resolveAll]
    constructor
    · rintro (ha | ⟨ha, -⟩)
      · exact hsub ha
      · exact ha
    · intro ha
      by_cases hmem : a ∈ ks
      · exact Or.inl hmem
      · exact Or.inr ⟨ha, hmem⟩
  case once =>
    rw [flatten_append, nodup_append]
    refine ⟨hfirst.once, hrest.once, ?_⟩
    rintro a ha b hb rfl
    exact (mem_keys_resolveAll.mp ((hrest.covers a).mp hb)).2 ((hfirst.covers a).mp ha)
  case inhabited =>
    intro group hgroup
    exact (mem_append.mp hgroup).elim (hfirst.inhabited group) (hrest.inhabited group)
  case components =>
    intro group hgroup
    exact (mem_append.mp hgroup).elim (hfirst.components group) (hrest.components group)
  case ordered =>
    refine pairwise_append.mpr ⟨hfirst.ordered, hrest.ordered, ?_⟩
    intro earlier hearlier later hlater a ha b hb hab
    obtain ⟨hbkeys, hbks⟩ := hright hlater hb
    exact hbks (hks a (hleft hearlier ha) b hbkeys hab)
  case ascending =>
    intro group hgroup
    exact (mem_append.mp hgroup).elim (hfirst.ascending group) (hrest.ascending group)

/-- Entries that wait for nothing are components of their own. -/
theorem Unresolved.arranges_ready (hg : g.Unresolved R) : Arranges R (· ∈ g.ready) (g.ready.map fun key => [key]) := by
  have hflatten : (g.ready.map fun key => [key]).flatten = g.ready := by
    rw [← flatMap_def, flatMap_singleton']
  constructor
  case covers =>
    intro a
    rw [hflatten]
  case once =>
    rw [hflatten]
    exact (ready_ascending hg.ascending).nodup
  case inhabited =>
    intro group hgroup
    obtain ⟨a, -, rfl⟩ := mem_map.mp hgroup
    exact cons_ne_nil a []
  case components =>
    intro group hgroup a ha b
    obtain ⟨c, hc, rfl⟩ := mem_map.mp hgroup
    obtain rfl := mem_singleton.mp ha
    obtain ⟨hkey, hfree⟩ := hg.mem_ready.mp hc
    rw [mem_singleton]
    constructor
    · rintro rfl
      exact ⟨.refl, .refl⟩
    · rintro ⟨hab, hba⟩
      -- the first step away from the entry would lead to a need that is left
      rcases ReflTransGen.cases_head hab with rfl | ⟨d, had, hdb⟩
      · rfl
      · exact absurd had (hfree d (hg.upward_path (hdb.trans hba) hkey))
  case ordered =>
    refine pairwise_map.mpr (pairwise_iff_forall_sublist.mpr fun {a b} hab => ?_)
    intro c hc d hd
    obtain rfl := mem_singleton.mp hc
    obtain rfl := mem_singleton.mp hd
    have hmem := hab.subset
    exact (hg.mem_ready.mp (hmem (by simp))).2 d (hg.mem_ready.mp (hmem (by simp))).1
  case ascending =>
    intro group hgroup
    obtain ⟨a, -, rfl⟩ := mem_map.mp hgroup
    exact pairwise_singleton _ _

theorem Unresolved.arranges_cycleOf (hg : g.Unresolved R) {key : α} (hkey : key ∈ g.keys) :
    Arranges R (· ∈ g.cycleOf key) [g.cycleOf key] := by
  have hascending : (g.cycleOf key).Pairwise (· < ·) := reach_ascending.filter _
  constructor
  case covers =>
    intro a
    simp
  case once => simpa using hascending.nodup
  case inhabited =>
    intro group hgroup
    rw [mem_singleton.mp hgroup]
    exact ne_nil_of_mem ((hg.mem_cycleOf hkey).mpr ⟨.refl, .refl⟩)
  case components =>
    intro group hgroup a ha b
    obtain rfl := mem_singleton.mp hgroup
    obtain ⟨hka, hak⟩ := (hg.mem_cycleOf hkey).mp ha
    rw [hg.mem_cycleOf hkey]
    constructor
    · rintro ⟨hkb, hbk⟩
      exact ⟨hak.trans hkb, hbk.trans hka⟩
    · rintro ⟨hab, hba⟩
      exact ⟨hka.trans hab, hba.trans hak⟩
  case ordered => exact pairwise_singleton _ _
  case ascending =>
    intro group hgroup
    rw [mem_singleton.mp hgroup]
    exact hascending

/-! ## Rounds -/

/-- **One round** resolves some entries that need nothing but each other, in their components. -/
theorem Unresolved.groupsWithin_round (hg : g.Unresolved R) (hne : g.keys ≠ []) (rounds : Nat) :
    ∃ ks first, ks ≠ [] ∧ ks ⊆ g.keys ∧ (∀ a ∈ ks, ∀ b ∈ g.keys, R a b → b ∈ ks) ∧ Arranges R (· ∈ ks) first ∧
      groupsWithin (rounds + 1) g = first ++ groupsWithin rounds (ks.foldl resolve g) := by
  obtain ⟨start, hstart⟩ := exists_mem_of_ne_nil _ hne
  cases hentries : g.entries with
  | nil => simp [keys, hentries] at hne
  | cons e es =>
    cases hready : g.ready with
    | nil =>
      obtain ⟨a, ha, hnext, hclosed⟩ := hg.nextCycle hstart
      have harranges := hg.arranges_cycleOf ha
      refine ⟨g.cycleOf a, [g.cycleOf a], harranges.inhabited _ (mem_singleton_self _),
        hg.cycleOf_subset ha, hclosed, harranges, ?_⟩
      simp [groupsWithin, hentries, popReady, hready, hnext]
    | cons k ks =>
      refine ⟨g.ready, g.ready.map fun key => [key], by simp [hready], fun a ha => ?_, ?_, hg.arranges_ready, ?_⟩
      · exact (hg.mem_ready.mp ha).1
      · intro a ha b hb hab
        exact absurd hab ((hg.mem_ready.mp ha).2 b hb)
      · simp [groupsWithin, hentries, popReady, hready]

/-- **All rounds together** arrange what is left. -/
theorem Unresolved.arranges_groupsWithin (hg : g.Unresolved R) {rounds : Nat} (hrounds : g.size ≤ rounds) :
    Arranges R (· ∈ g.keys) (groupsWithin rounds g) := by
  induction rounds generalizing g with
  | zero =>
    have hkeys : g.keys = [] := by
      rw [keys, map_eq_nil_iff, ← length_eq_zero_iff]
      exact Nat.le_zero.mp hrounds
    exact arranges_nil hkeys
  | succ rounds ih =>
    by_cases hkeys : g.keys = []
    · have hentries : g.entries = [] := map_eq_nil_iff.mp hkeys
      rw [groupsWithin, hentries]
      exact arranges_nil hkeys
    · obtain ⟨ks, first, hne, hsub, hclosed, hfirst, hround⟩ := hg.groupsWithin_round hkeys rounds
      have hlt := size_resolveAll_lt hg.ascending hsub hne
      rw [hround]
      exact hfirst.append (ih (hg.resolveAll hclosed) (by omega)) hsub hclosed

end Graph

/-! ## Graphs as they are built -/

/-- A step in building a graph. -/
inductive Action (α : Type) where
  | entry (key : α)
  | dependency (key need : α)

namespace Action

/-- The keys that an action makes entries. -/
def keys : Action α → List α
  | entry key => [key]
  | dependency key need => [key, need]

def perform (g : Graph α) : Action α → Graph α
  | entry key => g.addEntry key
  | dependency key need => g.addDependency key need

/-- The graph that the actions build from nothing. -/
def build (actions : List (Action α)) : Graph α :=
  actions.foldl perform {}

/-- Some action says that the one key needs the other. -/
def Needs (actions : List (Action α)) (a b : α) : Prop :=
  dependency a b ∈ actions

theorem build_append (actions : List (Action α)) (action : Action α) :
    build (actions ++ [action]) = perform (build actions) action := by
  rw [build, foldl_append]
  rfl

theorem mem_keys_perform {g : Graph α} {action : Action α} {a : α} :
    a ∈ (perform g action).keys ↔ a ∈ g.keys ∨ a ∈ action.keys := by
  cases action with
  | entry key => simp [perform, keys, Graph.mem_keys_addEntry, or_comm]
  | dependency key need => simp [perform, keys, Graph.mem_keys_addDependency, or_comm, or_assoc]

theorem mem_keys_build {actions : List (Action α)} {a : α} :
    a ∈ (build actions).keys ↔ ∃ action ∈ actions, a ∈ action.keys := by
  induction actions using List.reverseRecOn with
  | nil => simp [build, Graph.keys]
  | append_singleton actions action ih => simp [build_append, mem_keys_perform, ih, or_and_right, exists_or]

/-- What is said to need and be needed is an entry. -/
theorem Needs.mem_keys {actions : List (Action α)} {a b : α} (h : Needs actions a b) :
    a ∈ (build actions).keys ∧ b ∈ (build actions).keys :=
  ⟨mem_keys_build.mpr ⟨_, h, by simp [keys]⟩, mem_keys_build.mpr ⟨_, h, by simp [keys]⟩⟩

/-- **However a graph is built, it has on record what its actions say**, loops apart. -/
theorem settled_build (actions : List (Action α)) : (build actions).Settled ∧ ∀ a b,
    ((build actions).Needs a b ↔ a ≠ b ∧ Needs actions a b) ∧
      ((build actions).Awaits a b ↔ a ≠ b ∧ Needs actions a b) := by
  induction actions using List.reverseRecOn with
  | nil => exact ⟨Graph.settled_empty, fun a b => by simp [build, Graph.Needs, Graph.Awaits, Graph.get?, Needs]⟩
  | append_singleton actions action ih =>
    obtain ⟨hsettled, hrecord⟩ := ih
    rw [build_append]
    cases action with
    | entry key =>
      refine ⟨hsettled.addEntry key, fun a b => ?_⟩
      rw [perform, Graph.needs_addEntry hsettled.ascending, Graph.awaits_addEntry hsettled.ascending]
      simpa [Needs] using hrecord a b
    | dependency key need =>
      obtain ⟨hadded, hadds⟩ := hsettled.addDependency key need
      refine ⟨hadded, fun a b => ?_⟩
      rw [perform, (hadds a b).1, (hadds a b).2, (hrecord a b).1, (hrecord a b).2]
      simp only [Needs, mem_append, mem_singleton, dependency.injEq, ← and_or_left, and_self]

theorem unresolved_build (actions : List (Action α)) :
    (build actions).Unresolved fun a b => a ≠ b ∧ Needs actions a b where
  toTracks := by
    obtain ⟨hsettled, hrecord⟩ := settled_build actions
    exact Graph.tracks_iff.mpr ⟨hsettled.toCounted, fun a _ b => (hrecord a b).1, fun b _ a => (hrecord a b).2⟩
  upward h _ := h.2.mem_keys.1

end Action

/-! ## The groups of a graph -/

omit [LinearOrder α] in
/-- Loops lead nowhere. -/
theorem reflTransGen_loopless {a b : α} : ReflTransGen (fun a b => a ≠ b ∧ R a b) a b ↔ ReflTransGen R a b := by
  constructor
  · intro h
    induction h with
    | refl => exact .refl
    | tail _ hlast ih => exact ih.tail hlast.2
  · intro h
    induction h with
    | refl => exact .refl
    | @tail b c _ hlast ih =>
      by_cases hbc : b = c
      · exact hbc ▸ ih
      · exact ih.tail ⟨hbc, hlast⟩

omit [LinearOrder α] in
theorem mutual_iff {a b : α} : ReflTransGen R a b ∧ ReflTransGen R b a ↔ a = b ∨ (TransGen R a b ∧ TransGen R b a) := by
  constructor
  · rintro ⟨hab, hba⟩
    rcases reflTransGen_iff_eq_or_transGen.mp hab with h | hab
    · exact Or.inl h.symm
    · rcases reflTransGen_iff_eq_or_transGen.mp hba with h | hba
      · exact Or.inl h
      · exact Or.inr ⟨hab, hba⟩
  · rintro (rfl | ⟨hab, hba⟩)
    · exact ⟨.refl, .refl⟩
    · exact ⟨hab.to_reflTransGen, hba.to_reflTransGen⟩

/-- **The groups of a graph are the strongly connected components of its dependencies, in an order in which
    every dependency comes no later.** Every key that was mentioned is in exactly one group; keys share a
    group when they depend on each other, directly or not; and each group is in ascending order. -/
theorem groups_are_ordered_components (actions : List (Action α)) :
    let groups := (Action.build actions).groups
    ((∀ key, key ∈ groups.flatten ↔ ∃ action ∈ actions, key ∈ action.keys) ∧ groups.flatten.Nodup ∧
      ∀ group ∈ groups, group ≠ []) ∧
    (∀ group ∈ groups, ∀ a ∈ group, ∀ b, b ∈ group ↔
      a = b ∨ (TransGen (Action.Needs actions) a b ∧ TransGen (Action.Needs actions) b a)) ∧
    (∀ (i j : Fin groups.length), ∀ a ∈ groups.get i, ∀ b ∈ groups.get j,
      Action.Needs actions a b → j ≤ i) ∧
    ∀ group ∈ groups, group.Pairwise (· < ·) := by
  have harranges := (Action.unresolved_build actions).arranges_groupsWithin (Nat.le_refl _)
  refine ⟨⟨fun key => ?_, harranges.once, harranges.inhabited⟩, fun group hgroup a ha b => ?_, ?_,
    harranges.ascending⟩
  · rw [← Action.mem_keys_build]
    exact harranges.covers key
  · rw [← mutual_iff, ← reflTransGen_loopless (R := Action.Needs actions) (a := a),
      ← reflTransGen_loopless (R := Action.Needs actions) (a := b)]
    exact harranges.components group hgroup a ha b
  · intro i j a ha b hb hab
    by_contra hlt
    have hij : i < j := Nat.lt_of_not_le hlt
    have hdisjoint := (List.nodup_flatten.mp harranges.once).2
    have hne : a ≠ b := by
      rintro rfl
      exact List.pairwise_iff_get.mp hdisjoint i j hij ha hb
    exact List.pairwise_iff_get.mp harranges.ordered i j hij a ha b hb ⟨hne, hab⟩

example : (Action.build [.dependency 3 1, .dependency 1 2, .entry 0, .dependency 2 1] : Graph Nat).groups =
    [[0], [1, 2], [3]] := by
  decide

end Dependency
end UnionTyping
