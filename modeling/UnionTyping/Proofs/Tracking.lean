import Mathlib.Order.Lattice
import Mathlib.Data.List.Basic
import Mathlib.Data.List.Nodup
import UnionTyping.Dependency.Graph
import UnionTyping.Proofs.Fragment

/-!
# `Proofs.Tracking` — a dependency graph keeps track of a relation

A graph **tracks** a relation `R` when, between the keys that are entries, an entry needs exactly what `R`
says and is needed by exactly what `R` says, and when it waits for as many entries as it needs among those
that are left. Adding an entry and adding a dependency track the relation that grows with them; resolving an
entry keeps tracking the same relation, on fewer keys. So the counters never run out of step with the sets,
in whichever order the graph is built and resolved.
-/

namespace UnionTyping

open List

namespace Dependency

variable {α : Type} [LinearOrder α]

/-! ## Ascending lists -/

theorem insertKey_ascending {a : α} {ks : List α} (h : ks.Pairwise (· < ·)) : (insertKey a ks).Pairwise (· < ·) := by
  induction ks with
  | nil => simp [insertKey]
  | cons k rest ih =>
    obtain ⟨hk, hrest⟩ := pairwise_cons.mp h
    rw [insertKey]
    split
    · rename_i hak
      refine pairwise_cons.mpr ⟨fun b hb => ?_, h⟩
      rcases mem_cons.mp hb with rfl | hb
      · exact hak
      · exact lt_trans hak (hk b hb)
    · split
      · exact h
      · rename_i hak hne
        refine pairwise_cons.mpr ⟨fun b hb => ?_, ih hrest⟩
        rcases mem_insertKey.mp hb with rfl | hb
        · exact lt_of_le_of_ne (not_lt.mp hak) (Ne.symm hne)
        · exact hk b hb

namespace Graph

variable {g : Graph α} {f : Node α → Node α} {key need a b : α} {n : Node α}

/-! ## Looking up entries -/

theorem contains_iff : g.contains a = true ↔ a ∈ g.keys := by
  simp [contains, keys]

theorem mem_keys_iff : a ∈ g.keys ↔ ∃ n, g.get? a = some n := by
  rw [keys, get?]
  induction g.entries with
  | nil => simp
  | cons e rest ih =>
    rw [map_cons, mem_cons, ih, lookup_cons_ite]
    by_cases h : a = e.1
    · simp [h]
    · simp [h]

/-- Where no key is there twice, the entries are what is found under their keys. -/
theorem mem_entries_iff (hg : g.keys.Pairwise (· < ·)) :
    (a, n) ∈ g.entries ↔ g.get? a = some n := by
  rw [keys] at hg
  rw [get?]
  generalize g.entries = es at hg ⊢
  induction es generalizing n with
  | nil => simp
  | cons e rest ih =>
    obtain ⟨he, hrest⟩ := pairwise_cons.mp hg
    rw [mem_cons, ih hrest, lookup_cons_ite]
    by_cases h : a = e.1
    · subst h
      have hfresh : rest.lookup e.1 = none := by
        refine Option.eq_none_iff_forall_ne_some.mpr fun m hm => ?_
        exact lt_irrefl _ (he _ (mem_map.mpr ⟨(e.1, m), (ih hrest).mpr hm, rfl⟩))
      simp [Prod.ext_iff, hfresh, eq_comm]
    · simp [Prod.ext_iff, h]

theorem get?_eq_none_iff : g.get? a = none ↔ a ∉ g.keys := by
  rw [mem_keys_iff, Option.eq_none_iff_forall_ne_some, not_exists]

/-! ## What each operation does to the entries -/

theorem keys_modify : (g.modify key f).keys = g.keys := by
  rw [keys, keys, modify, map_map]
  refine map_congr_left fun e _ => ?_
  rw [Function.comp_apply]
  split <;> rfl

/-- Only the entry of the key changes, and only if it is there. -/
theorem get?_modify :
    (g.modify key f).get? a = if a = key then (g.get? a).map f else g.get? a := by
  rw [get?, get?, modify]
  induction g.entries with
  | nil => simp
  | cons e rest ih =>
    rw [map_cons, lookup_cons_ite, lookup_cons_ite, ih]
    by_cases ha : a = e.1
    · subst ha
      by_cases hkey : e.1 = key <;> simp [hkey]
    · have hfst : (if e.1 = key then (e.1, f e.2) else e).1 = e.1 := by split <;> rfl
      rw [hfst, if_neg ha, if_neg ha]

/-- Changing several entries the same way, each once. -/
theorem get?_foldl_modify {ks : List α} (hks : ks.Nodup) (g : Graph α) (a : α) :
    (ks.foldl (fun g key => g.modify key f) g).get? a =
      if a ∈ ks then (g.get? a).map f else g.get? a := by
  induction ks generalizing g with
  | nil => simp
  | cons k rest ih =>
    obtain ⟨hk, hrest⟩ := nodup_cons.mp hks
    rw [foldl_cons, ih hrest, get?_modify]
    by_cases ha : a = k
    · subst ha
      simp [hk]
    · simp [ha]

theorem keys_foldl_modify (ks : List α) (g : Graph α) :
    (ks.foldl (fun g key => g.modify key f) g).keys = g.keys := by
  induction ks generalizing g with
  | nil => rfl
  | cons k rest ih => rw [foldl_cons, ih, keys_modify]

theorem keys_addEntry : (g.addEntry key).keys = insertKey key g.keys := by
  rw [keys, keys, addEntry]
  induction g.entries with
  | nil => rfl
  | cons e rest ih =>
    rw [insertEntry, map_cons, insertKey]
    split
    · rfl
    · split
      · rfl
      · rw [map_cons, ih]

theorem mem_keys_addEntry : a ∈ (g.addEntry key).keys ↔ a = key ∨ a ∈ g.keys := by
  rw [keys_addEntry, mem_insertKey]

/-- A new entry starts out blank, and no other entry changes. -/
theorem get?_addEntry (hg : g.keys.Pairwise (· < ·)) :
    (g.addEntry key).get? a = if a = key ∧ a ∉ g.keys then some {} else g.get? a := by
  rw [keys] at hg
  rw [get?, get?, addEntry, keys]
  generalize g.entries = es at hg ⊢
  induction es with
  | nil =>
    rw [insertEntry, lookup_cons_ite, lookup_nil]
    by_cases h : a = key <;> simp [h]
  | cons e rest ih =>
    obtain ⟨he, hrest⟩ := pairwise_cons.mp hg
    rw [insertEntry]
    split
    · -- the key is below all others, so it is none of them
      rename_i hlt
      have hfresh : key ∉ (e :: rest).map Prod.fst := by
        intro hmem
        rcases mem_cons.mp hmem with rfl | hmem
        · exact lt_irrefl _ hlt
        · exact lt_asymm hlt (he key hmem)
      rw [lookup_cons_ite]
      by_cases h : a = key
      · subst h
        rw [if_pos rfl, if_pos ⟨rfl, hfresh⟩]
      · simp [h]
    · split
      · rename_i _ heq
        subst heq
        rw [if_neg]
        rintro ⟨rfl, hmem⟩
        exact hmem (mem_cons_self ..)
      · rename_i _ hne
        rw [lookup_cons_ite, lookup_cons_ite, ih hrest]
        by_cases h : a = e.1
        · subst h
          have hek : e.1 ≠ key := Ne.symm hne
          simp [hek]
        · have hmem : a ∈ (e :: rest).map Prod.fst ↔ a ∈ rest.map Prod.fst := by
            rw [map_cons, mem_cons, or_iff_right h]
          simp only [if_neg h, hmem]

/-- Puts a need on record, at both ends. -/
def record (g : Graph α) (key need : α) : Graph α :=
  (g.modify need fun node => { node with neededBy := insertKey key node.neededBy }).modify key fun node =>
    { node with pending := node.pending + 1, needs := insertKey need node.needs }

theorem keys_record : (g.record key need).keys = g.keys := by
  rw [record, keys_modify, keys_modify]

/-- Recording a need changes the entry that needs and the entry that is needed, and no other. -/
theorem get?_record_cases (hne : key ≠ need)
    (ha : (g.record key need).get? a = some n) : ∃ m, g.get? a = some m ∧
      ((a = key ∧ n = { m with pending := m.pending + 1, needs := insertKey need m.needs }) ∨
        (a = need ∧ n = { m with neededBy := insertKey key m.neededBy }) ∨
        (a ≠ key ∧ a ≠ need ∧ n = m)) := by
  rw [record, get?_modify, get?_modify] at ha
  by_cases hkey : a = key
  · have hneed : a ≠ need := hkey ▸ hne
    rw [if_pos hkey, if_neg hneed] at ha
    obtain ⟨m, hm, rfl⟩ := Option.map_eq_some_iff.mp ha
    exact ⟨m, hm, Or.inl ⟨hkey, rfl⟩⟩
  · rw [if_neg hkey] at ha
    by_cases hneed : a = need
    · rw [if_pos hneed] at ha
      obtain ⟨m, hm, rfl⟩ := Option.map_eq_some_iff.mp ha
      exact ⟨m, hm, Or.inr (Or.inl ⟨hneed, rfl⟩)⟩
    · rw [if_neg hneed] at ha
      exact ⟨n, ha, Or.inr (Or.inr ⟨hkey, hneed, rfl⟩)⟩

/-- All that adding a dependency can do. -/
theorem addDependency_cases (g : Graph α) (key need : α) :
    (key = need ∧ g.addDependency key need = g.addEntry key) ∨
      (key ≠ need ∧ ∃ node, ((g.addEntry key).addEntry need).get? need = some node ∧
        ((key ∈ node.neededBy ∧ g.addDependency key need = (g.addEntry key).addEntry need) ∨
          (key ∉ node.neededBy ∧ g.addDependency key need = ((g.addEntry key).addEntry need).record key need))) := by
  rw [addDependency]
  by_cases hne : key = need
  · exact Or.inl ⟨hne, if_pos hne⟩
  · have hneed : need ∈ ((g.addEntry key).addEntry need).keys := mem_keys_addEntry.mpr (Or.inl rfl)
    obtain ⟨node, hnode⟩ := mem_keys_iff.mp hneed
    refine Or.inr ⟨hne, node, hnode, ?_⟩
    rw [if_neg hne]
    simp only [hnode]
    by_cases hmem : key ∈ node.neededBy
    · exact Or.inl ⟨hmem, if_pos (by simpa using hmem)⟩
    · exact Or.inr ⟨hmem, if_neg (by simpa using hmem)⟩

theorem mem_keys_addDependency :
    a ∈ (g.addDependency key need).keys ↔ a = key ∨ a = need ∨ a ∈ g.keys := by
  have hboth : a ∈ ((g.addEntry key).addEntry need).keys ↔ a = key ∨ a = need ∨ a ∈ g.keys := by
    rw [mem_keys_addEntry, mem_keys_addEntry, or_left_comm]
  rcases g.addDependency_cases key need with ⟨rfl, h⟩ | ⟨-, node, -, ⟨-, h⟩ | ⟨-, h⟩⟩
  · rw [h, mem_keys_addEntry, or_self_left]
  · rw [h, hboth]
  · rw [h, keys_record, hboth]

theorem keys_resolve : (g.resolve key).keys = g.keys.filter (· ≠ key) := by
  have hfilter : (⟨g.entries.filter fun e => e.1 ≠ key⟩ : Graph α).keys = g.keys.filter (· ≠ key) := by
    rw [keys, keys, filter_map]
    rfl
  rw [resolve]
  cases h : g.get? key with
  | none =>
    refine (filter_eq_self.mpr fun a ha => ?_).symm
    have hne : a ≠ key := by
      rintro rfl
      exact get?_eq_none_iff.mp h ha
    simpa using hne
  | some node => rw [keys_foldl_modify, hfilter]

theorem mem_keys_resolve : a ∈ (g.resolve key).keys ↔ a ∈ g.keys ∧ a ≠ key := by
  simp [keys_resolve]

theorem get?_filter (h : a ≠ key) :
    (⟨g.entries.filter fun e => e.1 ≠ key⟩ : Graph α).get? a = g.get? a := by
  rw [get?, get?]
  induction g.entries with
  | nil => rfl
  | cons e rest ih =>
    by_cases hkey : e.1 = key
    · have hne : a ≠ e.1 := by rwa [hkey]
      rw [filter_cons_of_neg (by simpa using hkey), ih, lookup_cons_ite, if_neg hne]
    · rw [filter_cons_of_pos (by simpa using hkey), lookup_cons_ite, lookup_cons_ite, ih]

/-- Whoever needs a resolved entry waits for one entry less. -/
theorem get?_resolve {node : Node α} (hkey : g.get? key = some node)
    (hnode : node.neededBy.Nodup) (h : a ≠ key) :
    (g.resolve key).get? a =
      if a ∈ node.neededBy then (g.get? a).map fun n => { n with pending := n.pending - 1 }
      else g.get? a := by
  have hresolve : g.resolve key =
      node.neededBy.foldl (fun g waiting => g.modify waiting fun n => { n with pending := n.pending - 1 })
        ⟨g.entries.filter fun e => e.1 ≠ key⟩ := by
    rw [resolve, hkey]
  rw [hresolve, get?_foldl_modify hnode, get?_filter h]

section Counters

/-! ## Needing and waiting -/

/-- The one entry has the other key on record as a need, whether it is in the graph or not. -/
def Needs (g : Graph α) (a b : α) : Prop :=
  ∃ n, g.get? a = some n ∧ b ∈ n.needs

/-- The other entry counts for the one: when it is resolved, the one waits for one entry less. -/
def Awaits (g : Graph α) (a b : α) : Prop :=
  ∃ n, g.get? b = some n ∧ a ∈ n.neededBy

theorem Needs.mem_keys (h : g.Needs a b) : a ∈ g.keys :=
  let ⟨n, hn, _⟩ := h
  mem_keys_iff.mpr ⟨n, hn⟩

theorem Awaits.mem_keys (h : g.Awaits a b) : b ∈ g.keys :=
  let ⟨n, hn, _⟩ := h
  mem_keys_iff.mpr ⟨n, hn⟩

theorem needs_iff (ha : g.get? a = some n) : g.Needs a b ↔ b ∈ n.needs := by
  simp [Needs, ha]

theorem awaits_iff (hb : g.get? b = some n) : g.Awaits a b ↔ a ∈ n.neededBy := by
  simp [Awaits, hb]

/-- An entry that was there before, or a blank one. -/
theorem get?_addEntry_cases (hg : g.keys.Pairwise (· < ·))
    (ha : (g.addEntry key).get? a = some n) : g.get? a = some n ∨ (a ∉ g.keys ∧ n = {}) := by
  rw [get?_addEntry hg] at ha
  split at ha
  · rename_i hfresh
    exact .inr ⟨hfresh.2, (Option.some.inj ha).symm⟩
  · exact .inl ha

theorem get?_addEntry_of_get? (hg : g.keys.Pairwise (· < ·)) (ha : g.get? a = some n) :
    (g.addEntry key).get? a = some n := by
  rw [get?_addEntry hg, if_neg]
  · exact ha
  · exact fun hfresh => hfresh.2 (mem_keys_iff.mpr ⟨n, ha⟩)

/-- Neither set of a new entry has anything in it. -/
theorem listed_addEntry {S : Node α → List α} (hS : S {} = []) (hg : g.keys.Pairwise (· < ·)) :
    (∃ n, (g.addEntry key).get? a = some n ∧ b ∈ S n) ↔ ∃ n, g.get? a = some n ∧ b ∈ S n := by
  constructor
  · rintro ⟨n, hn, hb⟩
    rcases get?_addEntry_cases hg hn with hn | ⟨-, rfl⟩
    · exact ⟨n, hn, hb⟩
    · rw [hS] at hb
      cases hb
  · rintro ⟨n, hn, hb⟩
    exact ⟨n, get?_addEntry_of_get? hg hn, hb⟩

theorem needs_addEntry (hg : g.keys.Pairwise (· < ·)) : (g.addEntry key).Needs a b ↔ g.Needs a b :=
  listed_addEntry rfl hg

theorem awaits_addEntry (hg : g.keys.Pairwise (· < ·)) : (g.addEntry key).Awaits a b ↔ g.Awaits a b :=
  listed_addEntry rfl hg

/-- Recording a dependency adds it to what the one end needs and to nothing else. -/
theorem needs_record (hne : key ≠ need) (hkey : key ∈ g.keys) :
    (g.record key need).Needs a b ↔ g.Needs a b ∨ (a = key ∧ b = need) := by
  by_cases ha : a ∈ (g.record key need).keys
  · obtain ⟨n, hn⟩ := mem_keys_iff.mp ha
    obtain ⟨m, hm, ⟨rfl, rfl⟩ | ⟨rfl, rfl⟩ | ⟨hakey, -, rfl⟩⟩ := get?_record_cases hne hn
    · simp [needs_iff hn, needs_iff hm, mem_insertKey, or_comm]
    · simp [needs_iff hn, needs_iff hm, hne.symm]
    · simp [needs_iff hn, needs_iff hm, hakey]
  · have hakeys : a ∉ g.keys := by rwa [keys_record] at ha
    refine iff_of_false (fun h => ha h.mem_keys) (not_or.mpr ⟨fun h => hakeys h.mem_keys, ?_⟩)
    rintro ⟨rfl, -⟩
    exact hakeys hkey

/-- It is likewise added to what is waited for at the other end. -/
theorem awaits_record (hne : key ≠ need) (hneed : need ∈ g.keys) :
    (g.record key need).Awaits a b ↔ g.Awaits a b ∨ (a = key ∧ b = need) := by
  by_cases hb : b ∈ (g.record key need).keys
  · obtain ⟨n, hn⟩ := mem_keys_iff.mp hb
    obtain ⟨m, hm, ⟨rfl, rfl⟩ | ⟨rfl, rfl⟩ | ⟨-, hbneed, rfl⟩⟩ := get?_record_cases hne hn
    · simp [awaits_iff hn, awaits_iff hm, hne]
    · simp [awaits_iff hn, awaits_iff hm, mem_insertKey, or_comm]
    · simp [awaits_iff hn, awaits_iff hm, hbneed]
  · have hbkeys : b ∉ g.keys := by rwa [keys_record] at hb
    refine iff_of_false (fun h => hb h.mem_keys) (not_or.mpr ⟨fun h => hbkeys h.mem_keys, ?_⟩)
    rintro ⟨-, rfl⟩
    exact hbkeys hneed

/-! ## Counters that are right -/

/-- **The counters are right**: an entry needs what it waits for, and its counter says for how many entries it waits. -/
structure Counted (g : Graph α) : Prop where
  ascending : g.keys.Pairwise (· < ·)
  needs_ascending : ∀ {a n}, g.get? a = some n → n.needs.Pairwise (· < ·)
  neededBy_ascending : ∀ {a n}, g.get? a = some n → n.neededBy.Pairwise (· < ·)
  recorded : ∀ {a b}, a ∈ g.keys → g.Awaits a b → g.Needs a b
  pending : ∀ {a n}, g.get? a = some n → ∃ ws : List α, ws.Nodup ∧ (∀ b, b ∈ ws ↔ g.Awaits a b) ∧ n.pending = ws.length

/-- **Between operations** nothing but entries waits. -/
structure Settled (g : Graph α) : Prop extends g.Counted where
  present : ∀ {a b}, g.Awaits a b → a ∈ g.keys

theorem settled_empty : ({} : Graph α).Settled where
  ascending := List.Pairwise.nil
  needs_ascending h := by cases h
  neededBy_ascending h := by cases h
  recorded h := by cases h
  pending h := by cases h
  present h := by
    obtain ⟨_, hn, -⟩ := h
    cases hn

/-- A new entry starts with a counter of zero, which is right. -/
theorem Settled.addEntry (hg : g.Settled) (key : α) : (g.addEntry key).Settled := by
  constructor
  case toCounted =>
    constructor
    case ascending =>
      rw [keys_addEntry]
      exact insertKey_ascending hg.ascending
    case needs_ascending =>
      intro a n hn
      rcases get?_addEntry_cases hg.ascending hn with hn | ⟨-, rfl⟩
      · exact hg.needs_ascending hn
      · exact List.Pairwise.nil
    case neededBy_ascending =>
      intro a n hn
      rcases get?_addEntry_cases hg.ascending hn with hn | ⟨-, rfl⟩
      · exact hg.neededBy_ascending hn
      · exact List.Pairwise.nil
    case recorded =>
      intro a b _ hab
      rw [awaits_addEntry hg.ascending] at hab
      exact (needs_addEntry hg.ascending).mpr (hg.recorded (hg.present hab) hab)
    case pending =>
      intro a n hn
      simp only [awaits_addEntry hg.ascending]
      rcases get?_addEntry_cases hg.ascending hn with hn | ⟨hfresh, rfl⟩
      · exact hg.pending hn
      · -- no one else counts for a key that was no entry
        refine ⟨[], nodup_nil, fun b => iff_of_false not_mem_nil fun hab => ?_, rfl⟩
        exact hfresh (hg.present hab)
  case present =>
    intro a b hab
    rw [awaits_addEntry hg.ascending] at hab
    exact mem_keys_addEntry.mpr (.inr (hg.present hab))

/-- **Recording a new dependency keeps the counters right**: the counter goes up by one, and so does the number of
    entries that are waited for. -/
theorem Settled.record (hg : g.Settled) (hne : key ≠ need) (hkey : key ∈ g.keys)
    (hneed : need ∈ g.keys) (hnew : ¬g.Awaits key need) : (g.record key need).Settled := by
  constructor
  case toCounted =>
    constructor
    case ascending =>
      rw [keys_record]
      exact hg.ascending
    case needs_ascending =>
      intro a n hn
      obtain ⟨m, hm, ⟨-, rfl⟩ | ⟨-, rfl⟩ | ⟨-, -, rfl⟩⟩ := get?_record_cases hne hn
      · exact insertKey_ascending (hg.needs_ascending hm)
      · exact (hg.needs_ascending hm :)
      · exact hg.needs_ascending hm
    case neededBy_ascending =>
      intro a n hn
      obtain ⟨m, hm, ⟨-, rfl⟩ | ⟨-, rfl⟩ | ⟨-, -, rfl⟩⟩ := get?_record_cases hne hn
      · exact (hg.neededBy_ascending hm :)
      · exact insertKey_ascending (hg.neededBy_ascending hm)
      · exact hg.neededBy_ascending hm
    case recorded =>
      intro a b ha hab
      rw [keys_record] at ha
      rw [awaits_record hne hneed] at hab
      exact (needs_record hne hkey).mpr (hab.imp_left (hg.recorded ha))
    case pending =>
      intro a n hn
      simp only [awaits_record hne hneed]
      obtain ⟨m, hm, ⟨rfl, rfl⟩ | ⟨rfl, rfl⟩ | ⟨hakey, -, rfl⟩⟩ := get?_record_cases hne hn
      · obtain ⟨ws, hnodup, hws, hpending⟩ := hg.pending hm
        have hfresh : need ∉ ws := fun hmem => hnew ((hws need).mp hmem)
        refine ⟨need :: ws, nodup_cons.mpr ⟨hfresh, hnodup⟩, fun b => ?_, ?_⟩
        · simp [hws, or_comm]
        · rw [length_cons, hpending]
      · simpa [hne.symm] using hg.pending hm
      · simpa [hakey] using hg.pending hm
  case present =>
    intro a b hab
    rw [keys_record]
    rcases (awaits_record hne hneed).mp hab with hab | ⟨rfl, -⟩
    · exact hg.present hab
    · exact hkey

/-- **A dependency is put on record at both ends**, where it is not on record. -/
theorem Settled.addDependency (hg : g.Settled) (key need : α) : (g.addDependency key need).Settled ∧ ∀ a b,
    ((g.addDependency key need).Needs a b ↔ g.Needs a b ∨ (a ≠ b ∧ a = key ∧ b = need)) ∧
      ((g.addDependency key need).Awaits a b ↔ g.Awaits a b ∨ (a ≠ b ∧ a = key ∧ b = need)) := by
  have hkey := hg.addEntry key
  have hboth := hkey.addEntry need
  have hsame : ∀ a b, (((g.addEntry key).addEntry need).Needs a b ↔ g.Needs a b) ∧
      (((g.addEntry key).addEntry need).Awaits a b ↔ g.Awaits a b) := by
    intro a b
    rw [needs_addEntry hkey.ascending, needs_addEntry hg.ascending, awaits_addEntry hkey.ascending,
      awaits_addEntry hg.ascending]
    exact ⟨Iff.rfl, Iff.rfl⟩
  have hmem : need ∈ ((g.addEntry key).addEntry need).keys := mem_keys_addEntry.mpr (.inl rfl)
  have hmem' : key ∈ ((g.addEntry key).addEntry need).keys :=
    mem_keys_addEntry.mpr (.inr (mem_keys_addEntry.mpr (.inl rfl)))
  rcases g.addDependency_cases key need with ⟨rfl, h⟩ | ⟨hne, node, hnode, ⟨hknown, h⟩ | ⟨hnew, h⟩⟩
  · rw [h]
    refine ⟨hkey, fun a b => ?_⟩
    have hloop : ¬(a ≠ b ∧ a = key ∧ b = key) := fun hloop => hloop.1 (hloop.2.1.trans hloop.2.2.symm)
    rw [needs_addEntry hg.ascending, awaits_addEntry hg.ascending, or_iff_left hloop, or_iff_left hloop]
    exact ⟨Iff.rfl, Iff.rfl⟩
  · have hawaits := (awaits_iff hnode).mpr hknown
    rw [h]
    refine ⟨hboth, fun a b => ?_⟩
    rw [← (hsame a b).1, ← (hsame a b).2]
    refine ⟨(or_iff_left_of_imp ?_).symm, (or_iff_left_of_imp ?_).symm⟩
    · rintro ⟨-, rfl, rfl⟩
      exact hboth.recorded hmem' hawaits
    · rintro ⟨-, rfl, rfl⟩
      exact hawaits
  · rw [h]
    refine ⟨hboth.record hne hmem' hmem (mt (awaits_iff hnode).mp hnew), fun a b => ?_⟩
    have hapart : a ≠ b ∧ a = key ∧ b = need ↔ a = key ∧ b = need := by
      refine and_iff_right_of_imp ?_
      rintro ⟨rfl, rfl⟩
      exact hne
    rw [needs_record hne hmem', awaits_record hne hmem, (hsame a b).1, (hsame a b).2, hapart]
    exact ⟨Iff.rfl, Iff.rfl⟩

/-! ## Resolving -/

/-- Whatever is left after resolving has the sets it had, and waits for one entry less if it awaited that one. -/
theorem Counted.get?_resolve_cases (hg : g.Counted)
    (ha : (g.resolve key).get? a = some n) : ∃ m, g.get? a = some m ∧
      ((g.Awaits a key ∧ n = { m with pending := m.pending - 1 }) ∨ (¬g.Awaits a key ∧ n = m)) := by
  by_cases hkey : key ∈ g.keys
  · obtain ⟨node, hnode⟩ := mem_keys_iff.mp hkey
    have hne : a ≠ key := (mem_keys_resolve.mp (mem_keys_iff.mpr ⟨n, ha⟩)).2
    rw [get?_resolve hnode (hg.neededBy_ascending hnode).nodup hne] at ha
    rw [awaits_iff hnode]
    split at ha
    · rename_i hmem
      obtain ⟨m, hm, rfl⟩ := Option.map_eq_some_iff.mp ha
      exact ⟨m, hm, .inl ⟨hmem, rfl⟩⟩
    · rename_i hmem
      exact ⟨n, ha, .inr ⟨hmem, rfl⟩⟩
  · rw [Graph.resolve, get?_eq_none_iff.mpr hkey] at ha
    exact ⟨n, ha, .inr ⟨fun h => hkey h.mem_keys, rfl⟩⟩

/-- The sets of an entry stay as they are when others are resolved: only the entry of the key itself is gone. -/
theorem Counted.listed_resolve {S : Node α → List α} (hS : ∀ n pending, S { n with pending } = S n) (hg : g.Counted) :
    (∃ n, (g.resolve key).get? a = some n ∧ b ∈ S n) ↔ (∃ n, g.get? a = some n ∧ b ∈ S n) ∧ a ≠ key := by
  by_cases ha : a ∈ (g.resolve key).keys
  · obtain ⟨n, hn⟩ := mem_keys_iff.mp ha
    have hne := (mem_keys_resolve.mp ha).2
    obtain ⟨m, hm, ⟨-, rfl⟩ | ⟨-, rfl⟩⟩ := hg.get?_resolve_cases hn
    · simp [hn, hm, hS, hne]
    · simp [hn, hm, hne]
  · refine iff_of_false (fun ⟨n, hn, _⟩ => ha (mem_keys_iff.mpr ⟨n, hn⟩)) ?_
    rintro ⟨⟨n, hn, -⟩, hne⟩
    exact ha (mem_keys_resolve.mpr ⟨mem_keys_iff.mpr ⟨n, hn⟩, hne⟩)

theorem Counted.needs_resolve (hg : g.Counted) : (g.resolve key).Needs a b ↔ g.Needs a b ∧ a ≠ key :=
  hg.listed_resolve fun _ _ => rfl

theorem Counted.awaits_resolve (hg : g.Counted) : (g.resolve key).Awaits a b ↔ g.Awaits a b ∧ b ≠ key :=
  hg.listed_resolve fun _ _ => rfl

/-- **Resolving keeps the counters right**: they go down by one where the key was waited for. -/
theorem Counted.resolve (hg : g.Counted) (key : α) : (g.resolve key).Counted := by
  constructor
  case ascending =>
    rw [keys_resolve]
    exact hg.ascending.filter _
  case needs_ascending =>
    intro a n hn
    obtain ⟨m, hm, ⟨-, rfl⟩ | ⟨-, rfl⟩⟩ := hg.get?_resolve_cases hn
    · exact (hg.needs_ascending hm :)
    · exact hg.needs_ascending hm
  case neededBy_ascending =>
    intro a n hn
    obtain ⟨m, hm, ⟨-, rfl⟩ | ⟨-, rfl⟩⟩ := hg.get?_resolve_cases hn
    · exact (hg.neededBy_ascending hm :)
    · exact hg.neededBy_ascending hm
  case recorded =>
    intro a b ha hab
    obtain ⟨hakeys, hne⟩ := mem_keys_resolve.mp ha
    exact hg.needs_resolve.mpr ⟨hg.recorded hakeys (hg.awaits_resolve.mp hab).1, hne⟩
  case pending =>
    intro a n hn
    obtain ⟨m, hm, hcases⟩ := hg.get?_resolve_cases hn
    obtain ⟨ws, hnodup, hws, hpending⟩ := hg.pending hm
    refine ⟨ws.erase key, hnodup.erase key, fun b => ?_, ?_⟩
    · rw [hnodup.mem_erase_iff, hws, hg.awaits_resolve, and_comm]
    · rw [length_erase]
      rcases hcases with ⟨hawaits, rfl⟩ | ⟨hawaits, rfl⟩
      · rw [if_pos (by simpa [hws] using hawaits), hpending]
      · rw [if_neg (by simpa [hws] using hawaits), hpending]

/-- An entry is ready when it waits for nothing. -/
theorem Counted.mem_ready (hg : g.Counted) : a ∈ g.ready ↔ a ∈ g.keys ∧ ∀ b, ¬g.Awaits a b := by
  have hready : a ∈ g.ready ↔ ∃ n, g.get? a = some n ∧ n.pending = 0 := by
    simp [ready, mem_entries_iff hg.ascending]
  rw [hready, mem_keys_iff, ← exists_and_right]
  refine exists_congr fun n => and_congr_right fun hn => ?_
  obtain ⟨ws, -, hws, hpending⟩ := hg.pending hn
  rw [hpending, length_eq_zero_iff, eq_nil_iff_forall_not_mem]
  exact forall_congr' fun b => not_congr (hws b)

end Counters

/-! ## Tracking -/

/-- **The graph tracks the relation**: the sets of each entry say what `R` says of its key, and its counter
    says how many of the needed keys are still in the graph. -/
structure Tracks (g : Graph α) (R : α → α → Prop) : Prop where
  ascending : g.keys.Pairwise (· < ·)
  needs_ascending : ∀ {a n}, g.get? a = some n → n.needs.Pairwise (· < ·)
  neededBy_ascending : ∀ {a n}, g.get? a = some n → n.neededBy.Pairwise (· < ·)
  needs : ∀ {a n b}, g.get? a = some n → (b ∈ n.needs ↔ R a b)
  neededBy : ∀ {a n b}, g.get? a = some n → (b ∈ n.neededBy ↔ R b a)
  pending : ∀ {a n}, g.get? a = some n → n.pending = (n.needs.filter (· ∈ g.keys)).length

/-- Tracking is the counters being right, and both sets saying what the relation says. -/
theorem tracks_iff {R : α → α → Prop} : g.Tracks R ↔ g.Counted ∧
    (∀ a ∈ g.keys, ∀ b, g.Needs a b ↔ R a b) ∧ ∀ b ∈ g.keys, ∀ a, g.Awaits a b ↔ R a b := by
  -- the entries that a key waits for are those of its needs that are left
  have hlist : ∀ {a n}, g.get? a = some n → n.needs.Pairwise (· < ·) → (∀ b, g.Needs a b ↔ R a b) →
      (∀ b ∈ g.keys, (g.Awaits a b ↔ R a b)) → (n.needs.filter (· ∈ g.keys)).Nodup ∧
        ∀ b, b ∈ n.needs.filter (· ∈ g.keys) ↔ g.Awaits a b := by
    intro a n ha hascending hneeds hawaits
    refine ⟨hascending.nodup.filter _, fun b => ?_⟩
    rw [mem_filter, decide_eq_true_eq, ← needs_iff ha, hneeds]
    constructor
    · exact fun h => (hawaits b h.2).mpr h.1
    · exact fun h => ⟨(hawaits b h.mem_keys).mp h, h.mem_keys⟩
  constructor
  · intro hg
    have hneeds : ∀ a ∈ g.keys, ∀ b, g.Needs a b ↔ R a b := by
      intro a ha b
      obtain ⟨n, hn⟩ := mem_keys_iff.mp ha
      rw [needs_iff hn, hg.needs hn]
    have hawaits : ∀ b ∈ g.keys, ∀ a, g.Awaits a b ↔ R a b := by
      intro b hb a
      obtain ⟨n, hn⟩ := mem_keys_iff.mp hb
      rw [awaits_iff hn, hg.neededBy hn]
    refine ⟨⟨hg.ascending, hg.needs_ascending, hg.neededBy_ascending, fun ha hab => ?_, fun {a n} ha => ?_⟩, hneeds,
      hawaits⟩
    · exact (hneeds _ ha _).mpr ((hawaits _ hab.mem_keys _).mp hab)
    · obtain ⟨hnodup, hmem⟩ := hlist ha (hg.needs_ascending ha) (hneeds a (mem_keys_iff.mpr ⟨n, ha⟩))
        fun b hb => hawaits b hb a
      exact ⟨_, hnodup, hmem, hg.pending ha⟩
  · rintro ⟨hg, hneeds, hawaits⟩
    refine ⟨hg.ascending, hg.needs_ascending, hg.neededBy_ascending, fun {a n b} ha => ?_, fun {a n b} ha => ?_,
      fun {a n} ha => ?_⟩
    · rw [← needs_iff ha, hneeds a (mem_keys_iff.mpr ⟨n, ha⟩)]
    · rw [← awaits_iff ha, hawaits a (mem_keys_iff.mpr ⟨n, ha⟩)]
    · obtain ⟨hnodup, hmem⟩ := hlist ha (hg.needs_ascending ha) (hneeds a (mem_keys_iff.mpr ⟨n, ha⟩))
        fun b hb => hawaits b hb a
      obtain ⟨ws, hws, hwaiting, hpending⟩ := hg.pending ha
      rw [hpending]
      exact ((perm_ext_iff_of_nodup hws hnodup).mpr fun b => (hwaiting b).trans (hmem b).symm).length_eq

/-- **Resolving an entry keeps the counters right.** -/
theorem Tracks.resolve {R : α → α → Prop} (hg : g.Tracks R) (key : α) : (g.resolve key).Tracks R := by
  obtain ⟨hcounted, hneeds, hawaits⟩ := tracks_iff.mp hg
  refine tracks_iff.mpr ⟨hcounted.resolve key, fun a ha b => ?_, fun b hb a => ?_⟩
  · obtain ⟨ha, hne⟩ := mem_keys_resolve.mp ha
    rw [hcounted.needs_resolve, hneeds a ha, and_iff_left hne]
  · obtain ⟨hb, hne⟩ := mem_keys_resolve.mp hb
    rw [hcounted.awaits_resolve, hawaits b hb, and_iff_left hne]

end Graph
end Dependency
end UnionTyping
