import Mathlib.Data.Set.Basic
import UnionTyping.Proofs.Grouping

/-!
# `Proofs.Regrouping` — which entries are grouped once resolved keys have come back

An entry that is resolved stays on record with those that needed it. If its key becomes an entry again, they need it
(`Needs`) and do not wait for it (`Awaits`): the counters are still right (`Settled`), but a cycle of needs is no longer
a cycle of entries that wait. The rounds then resolve what **unravels** (`Unravels`): an entry that waits for nothing,
or a **knot** (`Knot`), some entries that need nothing else and that all wait, directly or not, for one that needs them
all. The order of the rounds does not matter, as two knots are the same or share nothing (`Knot.eq_of_mem`). So no
entry is lost exactly if the whole graph unravels, and it does as long as no entry has come back.
-/

namespace UnionTyping

open List

namespace Dependency

open Relation

/-! ## Unravelling -/

section Unravelling

variable {α : Type} {N N' W W' : α → α → Prop} {s c c' : Set α} {root root' : α}

/-- A relation between members of a set. -/
def Within (R : α → α → Prop) (c : Set α) (a b : α) : Prop :=
  a ∈ c ∧ b ∈ c ∧ R a b

theorem Within.imp {R S : α → α → Prop} (hcs : c ⊆ s) (h : ∀ a ∈ c, ∀ b ∈ c, R a b → S a b) : Within R c ≤ Within S s :=
  fun a b hab => ⟨hcs hab.1, hcs hab.2.1, h a hab.1 b hab.2.1 hab.2.2⟩

/-- **A knot among the members of `s`**: it needs no other member, its root needs all of it, and all of it waits for
    the root. -/
structure Knot (N W : α → α → Prop) (s c : Set α) (root : α) : Prop where
  subset : c ⊆ s
  root_mem : root ∈ c
  closed : ∀ a ∈ c, ∀ b ∈ s, N a b → b ∈ c
  needed : ∀ a ∈ c, ReflTransGen (Within N c) root a
  awaited : ∀ a ∈ c, TransGen (Within W c) a root

/-- **The members of `s` can be resolved one after the other**, where one that waits for no other goes alone and a knot
    goes at once. -/
inductive Unravels (N W : α → α → Prop) : Set α → Prop
  | done : Unravels N W ∅
  | free {s : Set α} {a : α} (ha : a ∈ s) (hfree : ∀ b ∈ s, ¬W a b) (hrest : Unravels N W (s \ {a})) :
      Unravels N W s
  | knot {s c : Set α} {root : α} (hknot : Knot N W s c root) (hrest : Unravels N W (s \ c)) : Unravels N W s

theorem Knot.restrict {t : Set α} (h : Knot N W s c root) (hct : c ⊆ t) (hts : t ⊆ s) : Knot N W t c root :=
  { h with
    subset := hct
    closed := fun a ha b hb => h.closed a ha b (hts hb) }

theorem Knot.congr (h : Knot N W s c root) (hN : ∀ a ∈ s, ∀ b ∈ s, (N a b ↔ N' a b))
    (hW : ∀ a ∈ s, ∀ b ∈ s, (W a b ↔ W' a b)) : Knot N' W' s c root where
  subset := h.subset
  root_mem := h.root_mem
  closed a ha b hb hab := h.closed a ha b hb ((hN a (h.subset ha) b hb).mpr hab)
  needed a ha := by
    refine ReflTransGen.mono (Within.imp subset_rfl fun x hx y hy => ?_) _ _ (h.needed a ha)
    exact (hN x (h.subset hx) y (h.subset hy)).mp
  awaited a ha := by
    refine TransGen.mono (Within.imp subset_rfl fun x hx y hy => ?_) _ _ (h.awaited a ha)
    exact (hW x (h.subset hx) y (h.subset hy)).mp

/-- Unravelling goes by what the relations say of the members. -/
theorem Unravels.congr (h : Unravels N W s) (hN : ∀ a ∈ s, ∀ b ∈ s, (N a b ↔ N' a b))
    (hW : ∀ a ∈ s, ∀ b ∈ s, (W a b ↔ W' a b)) : Unravels N' W' s := by
  induction h with
  | done => exact .done
  | @free s a ha hfree _ ih =>
    refine .free ha (fun b hb hab => hfree b hb ((hW a ha b hb).mpr hab)) (ih ?_ ?_)
    · exact fun x hx y hy => hN x hx.1 y hy.1
    · exact fun x hx y hy => hW x hx.1 y hy.1
  | knot hknot _ ih =>
    refine .knot (hknot.congr hN hW) (ih ?_ ?_)
    · exact fun x hx y hy => hN x hx.1 y hy.1
    · exact fun x hx y hy => hW x hx.1 y hy.1

/-- No member of a knot is free. -/
theorem Knot.not_mem_of_free (h : Knot N W s c root) {a : α} (hfree : ∀ b ∈ s, ¬W a b) : a ∉ c := by
  intro ha
  obtain ⟨b, hab, -⟩ := TransGen.head'_iff.mp (h.awaited a ha)
  exact hfree b (h.subset hab.2.1) hab.2.2

theorem Knot.subset_diff_of_free (h : Knot N W s c root) {a : α} (hfree : ∀ b ∈ s, ¬W a b) : c ⊆ s \ {a} := by
  refine fun x hx => ⟨h.subset hx, ?_⟩
  rintro rfl
  exact h.not_mem_of_free hfree hx

/-- What a member of a knot leads to is in the knot. -/
theorem Knot.mem_of_path (h : Knot N W s c root) {a b : α} (ha : a ∈ c) (hab : ReflTransGen (Within N s) a b) :
    b ∈ c := by
  induction hab with
  | refl => exact ha
  | tail _ hlast ih => exact h.closed _ ih _ hlast.2.1 hlast.2.2

theorem Knot.subset_of_mem (h : Knot N W s c root) (h' : Knot N W s c' root')
    (hWN : ∀ a ∈ s, ∀ b ∈ s, W a b → N a b) {a : α} (ha : a ∈ c) (ha' : a ∈ c') : c ⊆ c' := by
  -- the member waits for the root, so the root is in the other knot, with all that it needs
  have hback : ReflTransGen (Within N s) a root := by
    refine ReflTransGen.mono (Within.imp h.subset fun x hx y hy => ?_) _ _ (h.awaited a ha).to_reflTransGen
    exact hWN x (h.subset hx) y (h.subset hy)
  have hroot : root ∈ c' := h'.mem_of_path ha' hback
  intro b hb
  refine h'.mem_of_path hroot (ReflTransGen.mono (Within.imp h.subset fun x _ y _ => ?_) _ _ (h.needed b hb))
  exact id

/-- **Knots that share a member are the same.** -/
theorem Knot.eq_of_mem (h : Knot N W s c root) (h' : Knot N W s c' root')
    (hWN : ∀ a ∈ s, ∀ b ∈ s, W a b → N a b) {a : α} (ha : a ∈ c) (ha' : a ∈ c') : c = c' :=
  Set.Subset.antisymm (h.subset_of_mem h' hWN ha ha') (h'.subset_of_mem h hWN ha' ha)

/-- **A free member can go first.** -/
theorem Unravels.diff_free (h : Unravels N W s) {a : α} (ha : a ∈ s) (hfree : ∀ b ∈ s, ¬W a b) :
    Unravels N W (s \ {a}) := by
  induction h with
  | done => exact absurd ha (Set.notMem_empty a)
  | @free s b hb hbfree hrest ih =>
    by_cases hab : a = b
    · rwa [hab]
    · have hmore := ih ⟨ha, hab⟩ fun x hx => hfree x hx.1
      rw [Set.sdiff_sdiff_comm] at hmore
      exact .free ⟨hb, Ne.symm hab⟩ (fun x hx => hbfree x hx.1) hmore
  | @knot s c root hknot _ ih =>
    have hac : a ∉ c := hknot.not_mem_of_free hfree
    have hmore := ih ⟨ha, hac⟩ fun x hx => hfree x hx.1
    rw [Set.sdiff_sdiff_comm] at hmore
    exact .knot (hknot.restrict (hknot.subset_diff_of_free hfree) Set.sdiff_subset) hmore

/-- **A knot can go first**, if every member needs what it waits for. -/
theorem Unravels.diff_knot (h : Unravels N W s) (hWN : ∀ a ∈ s, ∀ b ∈ s, W a b → N a b)
    (hknot : Knot N W s c root) : Unravels N W (s \ c) := by
  induction h with
  | done => exact absurd (hknot.subset hknot.root_mem) (Set.notMem_empty root)
  | @free s a ha hfree _ ih =>
    have hleft : c ⊆ s \ {a} := hknot.subset_diff_of_free hfree
    have hmore := ih (fun x hx y hy => hWN x hx.1 y hy.1) (hknot.restrict hleft Set.sdiff_subset)
    rw [Set.sdiff_sdiff_comm] at hmore
    exact .free ⟨ha, hknot.not_mem_of_free hfree⟩ (fun x hx => hfree x hx.1) hmore
  | @knot s c' root' hknot' hrest ih =>
    by_cases hshare : ∃ a, a ∈ c ∧ a ∈ c'
    · obtain ⟨a, ha, ha'⟩ := hshare
      rwa [hknot.eq_of_mem hknot' hWN ha ha']
    · rw [not_exists] at hshare
      have hleft : c ⊆ s \ c' := fun x hx => ⟨hknot.subset hx, fun hx' => hshare x ⟨hx, hx'⟩⟩
      have hleft' : c' ⊆ s \ c := fun x hx' => ⟨hknot'.subset hx', fun hx => hshare x ⟨hx, hx'⟩⟩
      have hmore := ih (fun x hx y hy => hWN x hx.1 y hy.1) (hknot.restrict hleft Set.sdiff_subset)
      rw [Set.sdiff_sdiff_comm] at hmore
      exact .knot (hknot'.restrict hleft' Set.sdiff_subset) hmore

/-- Any number of free members can go first. -/
theorem unravels_iff_diff_free {ks : List α} (hks : ∀ a ∈ ks, a ∈ s ∧ ∀ b ∈ s, ¬W a b) :
    Unravels N W s ↔ Unravels N W (s \ {a | a ∈ ks}) := by
  induction ks generalizing s with
  | nil => simp
  | cons k rest ih =>
    obtain ⟨⟨hk, hfree⟩, hrest⟩ := forall_mem_cons.mp hks
    by_cases hmem : k ∈ rest
    · have hsame : {a | a ∈ k :: rest} = {a | a ∈ rest} := by
        ext a
        simp only [Set.mem_ofPred_eq, mem_cons, or_iff_right_iff_imp]
        rintro rfl
        exact hmem
      rw [hsame]
      exact ih hrest
    · have hsplit : s \ {a | a ∈ k :: rest} = (s \ {k}) \ {a | a ∈ rest} := by
        ext a
        simp only [Set.mem_sdiff, Set.mem_ofPred_eq, mem_cons, Set.mem_singleton_iff, not_or, and_assoc]
      have hothers : ∀ a ∈ rest, a ∈ s \ {k} ∧ ∀ b ∈ s \ {k}, ¬W a b := by
        refine fun a ha => ⟨⟨(hrest a ha).1, ?_⟩, fun b hb => (hrest a ha).2 b hb.1⟩
        rintro rfl
        exact hmem ha
      rw [hsplit, ← ih hothers]
      exact ⟨fun h => h.diff_free hk hfree, fun h => .free hk hfree h⟩

end Unravelling

variable {α : Type} [LinearOrder α]

namespace Graph

/-! ## Resolving several entries -/

variable {g : Graph α} {a b : α}

theorem Counted.resolveAll (hg : g.Counted) (ks : List α) : (ks.foldl Graph.resolve g).Counted := by
  induction ks generalizing g with
  | nil => exact hg
  | cons k rest ih => exact ih (hg.resolve k)

theorem Counted.needs_resolveAll (hg : g.Counted) {ks : List α} :
    (ks.foldl Graph.resolve g).Needs a b ↔ g.Needs a b ∧ a ∉ ks := by
  induction ks generalizing g with
  | nil => simp
  | cons k rest ih => rw [foldl_cons, ih (hg.resolve k), hg.needs_resolve, mem_cons, not_or, and_assoc]

theorem Counted.awaits_resolveAll (hg : g.Counted) {ks : List α} :
    (ks.foldl Graph.resolve g).Awaits a b ↔ g.Awaits a b ∧ b ∉ ks := by
  induction ks generalizing g with
  | nil => simp
  | cons k rest ih => rw [foldl_cons, ih (hg.resolve k), hg.awaits_resolve, mem_cons, not_or, and_assoc]

/-- **Resolving entries that wait for nothing but each other** leaves no one waiting who is gone. -/
theorem Settled.resolveAll (hg : g.Settled) {ks : List α} (hks : ∀ a ∈ ks, ∀ b, g.Awaits a b → b ∈ ks) :
    (ks.foldl resolve g).Settled where
  toCounted := hg.toCounted.resolveAll ks
  present := by
    intro a b hab
    obtain ⟨hab, hb⟩ := hg.awaits_resolveAll.mp hab
    exact mem_keys_resolveAll.mpr ⟨hg.present hab, fun ha => hb (hks a ha b hab)⟩

theorem Settled.popReady (hg : g.Settled) : g.popReady.2.Settled :=
  hg.resolveAll fun _ ha b hab => absurd hab ((hg.mem_ready.mp ha).2 b)

/-! ## Knots of the graph -/

/-- The keys of the graph. -/
def keySet (g : Graph α) : Set α :=
  {a | a ∈ g.keys}

theorem keySet_resolveAll {ks : List α} : (ks.foldl resolve g).keySet = g.keySet \ {a | a ∈ ks} := by
  ext a
  exact mem_keys_resolveAll

theorem mem_cycleOf_iff (ha : a ∈ g.keys) : b ∈ g.cycleOf a ↔
    ReflTransGen (g.Edge Node.needs) a b ∧ ReflTransGen (g.Edge Node.neededBy) a b := by
  rw [cycleOf, mem_filter, contains_iff_mem, mem_reach ha, mem_reach ha]

theorem cycleOf_subset_keys (ha : a ∈ g.keys) : g.cycleOf a ⊆ g.keys := by
  intro b hb
  rcases ReflTransGen.cases_tail ((mem_cycleOf_iff ha).mp hb).1 with rfl | ⟨_, _, hlast⟩
  · exact ha
  · exact hlast.1

/-- **A closed cycle is a knot**, if no entry is ready. -/
theorem Settled.knot_cycleOf (hg : g.Settled) {root : α} (hroot : root ∈ g.keys) (hready : g.ready = [])
    (hclosed : g.isClosed (g.cycleOf root) = true) :
    Knot g.Needs g.Awaits g.keySet {a | a ∈ g.cycleOf root} root := by
  rw [isClosed_iff_needs] at hclosed
  have hsub := cycleOf_subset_keys hroot
  -- whoever is in the cycle waits for someone, who is in the cycle too
  have hnext : ∀ {a b}, a ∈ g.cycleOf root → g.Awaits a b → b ∈ g.cycleOf root :=
    fun ha hab => hclosed _ ha _ hab.mem_keys (hg.recorded (hsub ha) hab)
  have hback : ∀ {a}, a ∈ g.cycleOf root → ReflTransGen (Within g.Awaits {a | a ∈ g.cycleOf root}) a root := by
    intro a ha
    have hpath := ((mem_cycleOf_iff hroot).mp ha).2
    induction hpath with
    | refl => exact .refl
    | @tail b c hrb hbc ih =>
      have hb : b ∈ g.cycleOf root := hnext ha hbc.2
      exact (ih hb).head ⟨ha, hb, hbc.2⟩
  constructor
  case subset => exact hsub
  case root_mem => exact (mem_cycleOf_iff hroot).mpr ⟨.refl, .refl⟩
  case closed => exact hclosed
  case needed =>
    intro a ha
    have hpath := ((mem_cycleOf_iff hroot).mp ha).1
    have hforth : ReflTransGen (Within g.Needs {a | a ∈ g.cycleOf root}) root a ∧ a ∈ g.cycleOf root := by
      clear ha
      induction hpath with
      | refl => exact ⟨.refl, (mem_cycleOf_iff hroot).mpr ⟨.refl, .refl⟩⟩
      | @tail b c _ hbc ih =>
        have hc := hclosed b ih.2 c hbc.1 hbc.2
        exact ⟨ih.1.tail ⟨ih.2, hc, hbc.2⟩, hc⟩
    exact hforth.1
  case awaited =>
    intro a ha
    obtain ⟨b, hab⟩ : ∃ b, g.Awaits a b := by
      by_contra hnone
      have hmem : a ∈ g.ready := hg.mem_ready.mpr ⟨hsub ha, not_exists.mp hnone⟩
      rw [hready] at hmem
      exact not_mem_nil hmem
    have hb := hnext ha hab
    exact TransGen.head'_iff.mpr ⟨b, ⟨ha, hb, hab⟩, hback hb⟩

/-- **A knot is a closed cycle.** -/
theorem isClosed_of_knot {c : Set α} {root : α} (h : Knot g.Needs g.Awaits g.keySet c root) :
    g.isClosed (g.cycleOf root) = true := by
  have hroot : root ∈ g.keys := h.subset h.root_mem
  have hmem : ∀ a, a ∈ g.cycleOf root ↔ a ∈ c := by
    intro a
    rw [mem_cycleOf_iff hroot]
    constructor
    · rintro ⟨hforth, -⟩
      induction hforth with
      | refl => exact h.root_mem
      | tail _ hlast ih => exact h.closed _ ih _ hlast.1 hlast.2
    · intro ha
      refine ⟨ReflTransGen.mono (fun x y hxy => ?_) _ _ (h.needed a ha), ?_⟩
      · exact ⟨h.subset hxy.2.1, hxy.2.2⟩
      · have hback := (h.awaited a ha).to_reflTransGen
        induction hback using ReflTransGen.head_induction_on with
        | refl => exact .refl
        | head hxy _ ih => exact (ih hxy.2.1).tail ⟨h.subset hxy.1, hxy.2.2⟩
  rw [isClosed_iff_needs]
  intro a ha b hb hab
  exact (hmem b).mpr (h.closed a ((hmem a).mp ha) b hb hab)

/-! ## Rounds -/

/-- Whether what is left unravels shows in the graph that is left. -/
theorem Settled.unravels_resolveAll (hg : g.Settled) {ks : List α} :
    Unravels g.Needs g.Awaits (g.keySet \ {a | a ∈ ks}) ↔
      Unravels (ks.foldl resolve g).Needs (ks.foldl resolve g).Awaits (ks.foldl resolve g).keySet := by
  have hneeds : ∀ a ∈ g.keySet \ {a | a ∈ ks}, ∀ b ∈ g.keySet \ {a | a ∈ ks},
      (g.Needs a b ↔ (ks.foldl resolve g).Needs a b) :=
    fun a ha b _ => (hg.needs_resolveAll.trans (and_iff_left ha.2)).symm
  have hawaits : ∀ a ∈ g.keySet \ {a | a ∈ ks}, ∀ b ∈ g.keySet \ {a | a ∈ ks},
      (g.Awaits a b ↔ (ks.foldl resolve g).Awaits a b) :=
    fun a _ b hb => (hg.awaits_resolveAll.trans (and_iff_left hb.2)).symm
  rw [keySet_resolveAll]
  constructor
  · exact fun h => h.congr hneeds hawaits
  · exact fun h => h.congr (fun a ha b hb => (hneeds a ha b hb).symm) fun a ha b hb => (hawaits a ha b hb).symm

/-- **All that a round can do**: it resolves some entries that wait for nothing but each other and that can go first,
    or it breaks off because nothing unravels. -/
theorem Settled.round_cases (hg : g.Settled) (hne : g.keys ≠ []) (rounds : Nat) :
    (∃ ks first, ks ≠ [] ∧ ks ⊆ g.keys ∧ ks.Nodup ∧ (∀ a ∈ ks, ∀ b, g.Awaits a b → b ∈ ks) ∧
      List.flatten first = ks ∧ groupsWithin (rounds + 1) g = first ++ groupsWithin rounds (ks.foldl resolve g) ∧
      (Unravels g.Needs g.Awaits g.keySet ↔ Unravels g.Needs g.Awaits (g.keySet \ {a | a ∈ ks}))) ∨
    (groupsWithin (rounds + 1) g = [] ∧ ¬Unravels g.Needs g.Awaits g.keySet) := by
  have hWN : ∀ a ∈ g.keySet, ∀ b ∈ g.keySet, g.Awaits a b → g.Needs a b := fun a ha b _ => hg.recorded ha
  cases hentries : g.entries with
  | nil => simp [keys, hentries] at hne
  | cons e es =>
    cases hready : g.ready with
    | cons k ks =>
      have hfree : ∀ a ∈ g.ready, a ∈ g.keySet ∧ ∀ b ∈ g.keySet, ¬g.Awaits a b := by
        intro a ha
        obtain ⟨hakeys, hnone⟩ := hg.mem_ready.mp ha
        exact ⟨hakeys, fun b _ => hnone b⟩
      refine .inl ⟨g.ready, g.ready.map fun key => [key], by simp [hready], fun a ha => (hfree a ha).1,
        (ready_ascending hg.ascending).nodup, ?_, ?_, ?_,
        unravels_iff_diff_free hfree⟩
      · exact fun a ha b hab => absurd hab ((hg.mem_ready.mp ha).2 b)
      · rw [← flatMap_def, flatMap_singleton']
      · simp [groupsWithin, hentries, Graph.popReady, hready]
    | nil =>
      cases hnext : g.nextCycle? with
      | some cycle =>
        obtain ⟨root, hroot, rfl⟩ := mem_map.mp (mem_of_find?_eq_some hnext)
        have hknot := hg.knot_cycleOf hroot hready (find?_some hnext)
        refine .inl ⟨g.cycleOf root, [g.cycleOf root], ne_nil_of_mem hknot.root_mem,
          cycleOf_subset_keys hroot, (reach_ascending.filter _).nodup, ?_, flatten_singleton, ?_,
          fun h => h.diff_knot hWN hknot, fun h => .knot hknot h⟩
        · exact fun a ha b hab => hknot.closed a ha b hab.mem_keys (hg.recorded (hknot.subset ha) hab)
        · simp [groupsWithin, hentries, Graph.popReady, hready, hnext]
      | none =>
        refine .inr ⟨by simp [groupsWithin, hentries, Graph.popReady, hready, hnext], fun h => ?_⟩
        rw [nextCycle?, find?_eq_none] at hnext
        generalize hs : g.keySet = s at h
        cases h with
        | done =>
          obtain ⟨a, ha⟩ := exists_mem_of_ne_nil _ hne
          exact Set.notMem_empty a (hs ▸ ha)
        | @free _ a ha hfree _ =>
          subst hs
          have hmem : a ∈ g.ready := hg.mem_ready.mpr ⟨ha, fun b hab => hfree b hab.mem_keys hab⟩
          rw [hready] at hmem
          exact not_mem_nil hmem
        | @knot _ c root hknot _ =>
          subst hs
          exact hnext _ (mem_map.mpr ⟨root, hknot.subset hknot.root_mem, rfl⟩) (isClosed_of_knot hknot)

theorem unravels_of_keys_eq_nil (hkeys : g.keys = []) : Unravels g.Needs g.Awaits g.keySet := by
  have hset : g.keySet = ∅ := by
    ext a
    simp [keySet, hkeys]
  rw [hset]
  exact .done

/-- **What the rounds return**: entries, each at most once, and all of them exactly if the graph unravels. -/
theorem Settled.groupsWithin_spec (hg : g.Settled) {rounds : Nat} (hrounds : g.size ≤ rounds) :
    (groupsWithin rounds g).flatten.Nodup ∧ (groupsWithin rounds g).flatten ⊆ g.keys ∧
      (g.keys ⊆ (groupsWithin rounds g).flatten ↔ Unravels g.Needs g.Awaits g.keySet) := by
  induction rounds generalizing g with
  | zero =>
    have hkeys : g.keys = [] := by
      rw [keys, map_eq_nil_iff, ← length_eq_zero_iff]
      exact Nat.le_zero.mp hrounds
    exact ⟨nodup_nil, nil_subset _, iff_of_true (by simp [hkeys]) (unravels_of_keys_eq_nil hkeys)⟩
  | succ rounds ih =>
    by_cases hkeys : g.keys = []
    · have hentries : g.entries = [] := map_eq_nil_iff.mp hkeys
      rw [groupsWithin, hentries]
      exact ⟨nodup_nil, nil_subset _, iff_of_true (by simp [hkeys]) (unravels_of_keys_eq_nil hkeys)⟩
    · rcases hg.round_cases hkeys rounds with
        ⟨ks, first, hne, hsub, hnodup, hclosed, hfirst, hround, hunravels⟩ | ⟨hround, hstuck⟩
      · have hlt := size_resolveAll_lt hg.ascending hsub hne
        have hsettled := hg.resolveAll hclosed
        obtain ⟨hrest, hleft, hcovers⟩ := ih hsettled (by omega)
        rw [hround, flatten_append, hfirst]
        refine ⟨nodup_append.mpr ⟨hnodup, hrest, ?_⟩, ?_, ?_⟩
        · rintro a ha b hb rfl
          exact (mem_keys_resolveAll.mp (hleft hb)).2 ha
        · exact append_subset.mpr ⟨hsub, fun a ha => (mem_keys_resolveAll.mp (hleft ha)).1⟩
        · rw [hunravels, hg.unravels_resolveAll, ← hcovers]
          constructor
          · intro hall a ha
            obtain ⟨hakeys, haks⟩ := mem_keys_resolveAll.mp ha
            exact (mem_append.mp (hall hakeys)).resolve_left haks
          · intro hall a ha
            by_cases haks : a ∈ ks
            · exact mem_append_left _ haks
            · exact mem_append_right _ (hall (mem_keys_resolveAll.mpr ⟨ha, haks⟩))
      · rw [hround]
        exact ⟨nodup_nil, nil_subset _, iff_of_false (by simpa using hkeys) hstuck⟩

/-- **As long as needing is waiting**, the graph tracks its needs. -/
theorem Settled.unresolved (hg : g.Settled) (hcounts : ∀ a b, g.Needs a b → b ∈ g.keys → g.Awaits a b) :
    g.Unresolved g.Needs where
  toTracks := by
    refine tracks_iff.mpr ⟨hg.toCounted, fun _ _ _ => Iff.rfl, fun b hb a => ⟨fun hab => ?_, fun hab => ?_⟩⟩
    · exact hg.recorded (hg.present hab) hab
    · exact hcounts a b hab hb
  upward hab _ := hab.mem_keys

end Graph

/-! ## Graphs that are built and resolved in turns -/

/-- A step in the life of a graph: it grows, or what waits for nothing is resolved. -/
inductive Step (α : Type) where
  | act (action : Action α)
  | pop

namespace Step

def perform (g : Graph α) : Step α → Graph α
  | act action => action.perform g
  | pop => g.popReady.2

/-- The graph that the steps lead to from nothing. -/
def run (steps : List (Step α)) : Graph α :=
  steps.foldl perform {}

/-- Some step has resolved the key. -/
def Popped (steps : List (Step α)) (key : α) : Prop :=
  ∃ before after, steps = before ++ pop :: after ∧ key ∈ (run before).ready

theorem run_append (steps : List (Step α)) (step : Step α) : run (steps ++ [step]) = perform (run steps) step := by
  rw [run, foldl_append]
  rfl

theorem settled_run (steps : List (Step α)) : (run steps).Settled := by
  induction steps using List.reverseRecOn with
  | nil => exact Graph.settled_empty
  | append_singleton steps step ih =>
    rw [run_append]
    cases step with
    | pop => exact ih.popReady
    | act action =>
      cases action with
      | entry key => exact ih.addEntry key
      | dependency key need => exact (ih.addDependency key need).1

theorem Popped.append {steps : List (Step α)} {key : α} (h : Popped steps key) (step : Step α) :
    Popped (steps ++ [step]) key := by
  obtain ⟨before, after, rfl, hkey⟩ := h
  exact ⟨before, after ++ [step], by simp, hkey⟩

/-- **A need counts until it is resolved.** -/
theorem awaits_or_popped {steps : List (Step α)} {a b : α} (h : (run steps).Needs a b) :
    (run steps).Awaits a b ∨ Popped steps b := by
  induction steps using List.reverseRecOn with
  | nil =>
    obtain ⟨_, hn, -⟩ := h
    cases hn
  | append_singleton steps step ih =>
    have hsettled := settled_run steps
    rw [run_append] at h ⊢
    cases step with
    | pop =>
      have hneeds := (hsettled.needs_resolveAll.mp h).1
      rcases ih hneeds with hab | hpopped
      · by_cases hb : b ∈ (run steps).ready
        · exact .inr ⟨steps, [], rfl, hb⟩
        · exact .inl (hsettled.awaits_resolveAll.mpr ⟨hab, hb⟩)
      · exact .inr (hpopped.append pop)
    | act action =>
      have hold : (Action.perform (run steps) action).Awaits a b ∨ Popped steps b →
          (Action.perform (run steps) action).Awaits a b ∨ Popped (steps ++ [act action]) b :=
        fun hcases => hcases.imp_right fun hpopped => hpopped.append (act action)
      cases action with
      | entry key =>
        rw [perform, Action.perform, Graph.needs_addEntry hsettled.ascending] at h
        refine hold ((ih h).imp_left fun hab => ?_)
        exact (Graph.awaits_addEntry hsettled.ascending).mpr hab
      | dependency key need =>
        obtain ⟨hneeds, hawaits⟩ := (hsettled.addDependency key need).2 a b
        rcases hneeds.mp h with h | hnew
        · exact hold ((ih h).imp_left fun hab => hawaits.mpr (.inl hab))
        · exact .inl (hawaits.mpr (.inr hnew))

end Step

/-- **Which entries the groups of a graph contain**, however it was built and resolved before. No entry is in them
    twice. All entries are in them exactly if the graph unravels, and it does if no entry has been resolved before. -/
theorem groups_complete_iff_unravels (steps : List (Step α)) :
    let g := Step.run steps
    (g.groups.flatten.Nodup ∧ ∀ key ∈ g.groups.flatten, key ∈ g.keys) ∧
    ((∀ key ∈ g.keys, key ∈ g.groups.flatten) ↔ Unravels g.Needs g.Awaits {key | key ∈ g.keys}) ∧
    ((∀ key ∈ g.keys, ¬Step.Popped steps key) → ∀ key ∈ g.keys, key ∈ g.groups.flatten) := by
  intro g
  have hg : g.Settled := Step.settled_run steps
  obtain ⟨honce, hentries, hall⟩ := hg.groupsWithin_spec (Nat.le_refl _)
  refine ⟨⟨honce, fun key hkey => hentries hkey⟩, hall, fun hnew key hkey => ?_⟩
  have hunresolved := hg.unresolved fun a b hab hb => (Step.awaits_or_popped hab).resolve_right (hnew b hb)
  exact ((hunresolved.arranges_groupsWithin (Nat.le_refl _)).covers key).mpr hkey

/-- **Entries that have come back can be lost.** `0` and `3` still have `2` and `1` on record and do not wait for them,
    so of the two pairs that wait for each other neither is closed. -/
theorem returning_entries_are_lost :
    let g : Graph Nat := Step.run [.act (.dependency 0 2), .act (.dependency 3 1), .pop, .act (.dependency 0 1),
      .act (.dependency 1 0), .act (.dependency 2 3), .act (.dependency 3 2)]
    g.keys = [0, 1, 2, 3] ∧ g.groups = [] := by
  decide

end Dependency
end UnionTyping
