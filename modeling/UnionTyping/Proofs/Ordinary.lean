import UnionTyping.Proofs.Declared

/-!
# `Proofs.Ordinary` — every declaration has a type

The language has no declarations of types, so the types that come up are made of variables, simple types, functions
and unions with members. They are called *ordinary*. The solver keeps to ordinary types: it takes them apart, puts
parts together again, and unfolds a definition or tries the options of a sum only where it is given one
(`ordinary_kind`). The operators begin with ordinary types, so in every context that a session reaches everything is
ordinary (`Reached.ordinary`).

An ordinary type stands for at least one alternative (`Ordinary.decompose_ne_nil`). So no declaration is left without
a type once its body is typed. Nor does a placeholder ever arise: types without placeholders are called *explicit*, and
ordinary types are.
-/

namespace UnionTyping

open List Ty Copying

/-! ## Explicit types -/

namespace Ty

/-- Whether the type is a placeholder. -/
def isPlaceholder : Ty → Bool
  | .recursive _ _ => true
  | _ => false

/-- No part of the type is a placeholder. -/
def Explicit (t : Ty) : Prop :=
  ∀ u ∈ t.subterms, u.isPlaceholder = false

instance (t : Ty) : Decidable t.Explicit :=
  inferInstanceAs (Decidable (∀ u ∈ t.subterms, u.isPlaceholder = false))

end Ty

/-- All variables and constructors, but neither placeholders nor unions without members. -/
def Fragment.explicit : Fragment := ⟨fun _ => True, True, False, False, True⟩

namespace Ty

theorem in_explicit {t : Ty} : t.In .explicit ↔ t.Solid ∧ t.Explicit := by
  constructor
  · intro h
    refine ⟨h.solid not_false, fun u hu => ?_⟩
    cases u with
    | recursive n as => exact (h _ hu).elim
    | _ => rfl
  · rintro ⟨hsolid, hexplicit⟩ u hu
    cases u with
    | recursive n as => exact Bool.noConfusion (hexplicit _ hu)
    | union ms => exact ⟨trivial, fun hnil => hsolid (hnil ▸ hu)⟩
    | _ => trivial

/-! ## Ordinary types -/

/-- Whether the topmost constructor is that of an ordinary type. -/
def isOrdinary : Ty → Bool
  | .var _ => true
  | .simple _ => true
  | .func _ _ => true
  | .union ms => !ms.isEmpty
  | _ => false

/-- Every part of the type is a variable, a simple type, a function or a union with members. -/
def Ordinary (t : Ty) : Prop :=
  ∀ u ∈ t.subterms, u.isOrdinary = true

instance (t : Ty) : Decidable t.Ordinary :=
  inferInstanceAs (Decidable (∀ u ∈ t.subterms, u.isOrdinary = true))

end Ty

/-- All variables, and the constructors of ordinary types. -/
def Fragment.ordinary : Fragment := ⟨fun _ => True, True, False, False, False⟩

namespace Ty

variable {t : Ty}

/-- Ordinary types make up a fragment, so what is proved for fragments applies to them as well. -/
theorem in_ordinary : t.In .ordinary ↔ t.Ordinary := by
  refine forall₂_congr fun u _ => ?_
  cases u <;> simp [Fragment.Admits, Fragment.ordinary, isOrdinary]

theorem Ordinary.explicit (h : t.Ordinary) : t.Explicit := by
  intro u hu
  have hordinary := h u hu
  cases u with
  | recursive n as => cases hordinary
  | _ => rfl

end Ty

/-! ## Ordinary bindings -/

/-- Every variable is bound to an ordinary type, if to any. -/
def Arena.Ordinary (a : Arena) : Prop :=
  ∀ id t, a.binding? id = some t → t.Ordinary

namespace Arena.Ordinary

variable {a : Arena} {t : Ty} (ha : a.Ordinary)
include ha

theorem closed : a.Closed .ordinary :=
  fun v t _ ht => in_ordinary.mpr (ha v.id t ht)

/-- What is seen of an ordinary type is ordinary. -/
theorem expose (ht : t.Ordinary) : (a.expose t).Ordinary :=
  in_ordinary.mp (ha.closed.expose (in_ordinary.mpr ht))

/-- **An ordinary type stands for an alternative.** -/
theorem decompose_ne_nil (ht : t.Ordinary) : a.decompose t ≠ [] := by
  have hexposed := in_ordinary.mpr (ha.expose ht)
  unfold Arena.decompose
  cases heq : a.expose t with
  | union ms => exact fun hnil => (heq ▸ hexposed).admits.2 hnil
  | algebraic n as os => exact (heq ▸ hexposed).admits.2.elim
  | _ => exact cons_ne_nil _ _

end Arena.Ordinary

/-- Ordinary types, whatever the arena. -/
def Regime.ordinary : Regime where
  fragment _ := .ordinary
  base := 0
  choices _ := trivial
  grow _ := ⟨fun _ h => h, id, id, id, id⟩
  old _ _ _ := trivial
  fresh _ _ := trivial
  placeholders _ h := h
  steady _ := rfl

/-- Definitions need not be ordinary: where there are no placeholders none is unfolded. -/
theorem Arena.Ordinary.holds {a : Arena} (ha : a.Ordinary) (defs : Definitions) : Regime.ordinary.Holds defs a :=
  ⟨Nat.zero_le _, ha.closed, fun h => h.elim⟩

theorem Regime.Keeps.ordinary {a b : Arena} (h : Regime.ordinary.Keeps a b) : b.Ordinary :=
  fun id t ht => in_ordinary.mp (h.closed ⟨id, ""⟩ t trivial ht)

namespace Typing

open Check

/-! ## Sessions -/

/-- **Ordinary types are a kind that the solver keeps to.** -/
theorem ordinary_kind : Kind Ordinary where
  simple _ _ := in_ordinary.mp in_simple
  func _ _ _ ha hr := in_ordinary.mp (in_func.mpr ⟨in_ordinary.mpr ha, in_ordinary.mpr hr⟩)
  union? _ _ _ hts h := in_ordinary.mp (.of_union? trivial (fun u hu => in_ordinary.mpr (hts u hu)) h)
  expose _ _ hc ht := Arena.Ordinary.expose hc.bindings ht
  note _ _ _ _ hc := ⟨⟨hc.bindings, hc.symbols⟩, rfl, rfl⟩
  lookup c l hc := by
    obtain ⟨arena, hcontext, -, hsame, hfound⟩ := c.typeOf_spec l
    rw [hcontext]
    refine ⟨⟨fun id t ht => hc.bindings id t (hsame id ▸ ht), hc.symbols⟩, ⟨rfl, rfl⟩, fun t ht => ?_⟩
    have hcandidates := Environment.forall_candidates (l := l) hc.symbols
    exact in_ordinary.mp (typeOf_in (fun _ => trivial) not_false trivial (Arena.Ordinary.closed hc.bindings)
      (fun u hu => in_ordinary.mpr (hcandidates u hu)) (congrArg Prod.fst (hfound t ht)))
  unify c _ _ hc hl hr := by
    have hkeeps := unify_keeps (Arena.Ordinary.holds hc.bindings c.definitions) (in_ordinary.mpr hl)
      (in_ordinary.mpr hr)
    exact ⟨⟨hkeeps.ordinary, hc.symbols⟩, rfl, rfl⟩
  apply c _ _ hc hf ha := by
    obtain ⟨hkeeps, hout⟩ := apply_keeps (Arena.Ordinary.holds hc.bindings c.definitions)
      (in_ordinary.mpr hf) (in_ordinary.mpr ha)
    exact ⟨⟨hkeeps.ordinary, hc.symbols⟩, ⟨rfl, rfl⟩, fun t ht => in_ordinary.mp (hout t ht)⟩
  var _ := in_ordinary.mp (in_var.mpr trivial)

/-- **Typing keeps to ordinary types.** -/
theorem ordinary_disciplined : Disciplined (keeping Ordinary) :=
  ordinary_kind.houses.disciplined

/-- **In the contexts that a session reaches everything is ordinary.** -/
theorem Reached.ordinary {c : Context} (h : Reached c) : KeepingCalm Ordinary c :=
  ordinary_kind.reached (by decide +kernel) h

/-- **A group whose bodies are typed has types.** -/
theorem collectTypes_ordinary {β : Type} {members : List (Context.Member β)} {c : Context}
    (hc : c.store.arena.Ordinary) (hmembers : ∀ m ∈ members, m.type.Ordinary) :
    ∃ types d, Context.collectTypes members c = (.ok types, d) := by
  induction members generalizing c with
  | nil => exact ⟨[], c, rfl⟩
  | cons m rest ih =>
    obtain ⟨hm, hrest⟩ := forall_mem_cons.mp hmembers
    have hsome : (c.decompose m.type).isEmpty = false := isEmpty_eq_false_iff.mpr (hc.decompose_ne_nil hm)
    unfold Context.collectTypes
    rw [if_neg (by rw [hsome]; exact Bool.false_ne_true)]
    extract_lets t noted
    obtain ⟨types, d, hcollect⟩ := ih (c := noted) hc hrest
    exact ⟨t :: types, d, by simp [hcollect]⟩

end Typing
end UnionTyping
