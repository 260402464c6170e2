import UnionTyping.Language.Expr
import Mathlib.Data.List.Basic
import Mathlib.Data.List.Pairwise

/-!
# `Proofs.Lexical` — lexical scope, by position

A part of an expression is found at a *position*: the places of the children to go to, one after the other. A
position lies in the scope of a name if a function or a local binding strictly above it introduces the name
(`Expr.InScope`); the value of a local binding is as much in its scope as the expression behind it.

`freeNames` goes through an expression with a list of the names bound so far, and never mentions positions. What
it finds is nevertheless told by positions alone: it lists the unqualified names that are used outside their
scopes, each once, by their first uses (`mem_freeNames`, `freeNames_in_order`).
-/

namespace UnionTyping

open List

namespace Expr

/-! ## Positions and scopes -/

/-- The part at a position. -/
def at? (e : Expr) : (position : List Nat) → Option Expr
  | [] => some e
  | i :: p => e.children[i]?.bind fun child => child.at? p

/-- The name that a function or a local binding introduces, for all its parts. -/
def binder? : Expr → Option String
  | .lambda _ x _ => some x.name
  | .binding _ x _ _ => some x.name
  | _ => none

/-- **The position lies in the scope of a name**: some part strictly above it introduces the name. -/
def InScope (e : Expr) (p : List Nat) (x : String) : Prop :=
  ∃ above i below, p = above ++ i :: below ∧ (e.at? above).bind binder? = some x

/-- **A free use**: an unqualified name outside the scope of any such name. -/
def UsesFreely (e : Expr) (p : List Nat) (x : String) : Prop :=
  (∃ span, e.at? p = some (.name span ⟨none, x⟩)) ∧ ¬e.InScope p x

variable {e : Expr} {p : List Nat} {x : String}

theorem not_inScope_nil : ¬e.InScope [] x := by
  rintro ⟨above, i, below, h, -⟩
  cases above <;> cases h

/-- The whole expression comes first, and then the part that the position leads to. -/
theorem inScope_cons {i : Nat} : e.InScope (i :: p) x ↔
    e.binder? = some x ∨ ∃ child, e.children[i]? = some child ∧ child.InScope p x := by
  constructor
  · rintro ⟨above, j, below, hp, hbinder⟩
    cases above with
    | nil => exact Or.inl hbinder
    | cons k above =>
      obtain ⟨rfl, rfl⟩ := List.cons.inj hp
      rw [at?] at hbinder
      cases hchild : e.children[i]? with
      | none =>
        rw [hchild] at hbinder
        cases hbinder
      | some child =>
        rw [hchild] at hbinder
        exact Or.inr ⟨child, rfl, above, j, below, rfl, hbinder⟩
  · rintro (hbinder | ⟨child, hchild, above, j, below, rfl, hbinder⟩)
    · exact ⟨[], i, p, rfl, hbinder⟩
    · refine ⟨i :: above, j, below, rfl, ?_⟩
      rw [at?, hchild]
      exact hbinder

/-- Decides scope along the position. -/
def inScope (x : String) : (position : List Nat) → Expr → Bool
  | [], _ => false
  | i :: p, e => decide (e.binder? = some x) || (e.children[i]?.any fun child => child.inScope x p)

theorem inScope_iff : e.inScope x p = true ↔ e.InScope p x := by
  induction p generalizing e with
  | nil => exact ⟨Bool.noConfusion, fun h => absurd h not_inScope_nil⟩
  | cons i p ih =>
    rw [inScope_cons, inScope, Bool.or_eq_true, decide_eq_true_iff, Option.any_eq_true]
    refine or_congr Iff.rfl (exists_congr fun child => and_congr_right fun _ => ih)

instance : Decidable (e.InScope p x) :=
  decidable_of_iff _ inScope_iff

/-! ## Free uses, in order -/

theorem usesFreely_cons {i : Nat} : e.UsesFreely (i :: p) x ↔
    e.binder? ≠ some x ∧ ∃ child, e.children[i]? = some child ∧ child.UsesFreely p x := by
  rw [UsesFreely, inScope_cons, at?, not_or]
  cases e.children[i]? with
  | none => simp
  | some child => simp [UsesFreely, and_left_comm]

theorem not_usesFreely_nil (h : ∀ span path, e ≠ .name span path) : ¬e.UsesFreely [] x := by
  rintro ⟨⟨span, hname⟩, -⟩
  exact h _ _ (Option.some.inj hname)

/-- **Induction where the constructor does not matter.** -/
@[elab_as_elim]
theorem childwise {motive : Expr → Prop} (step : ∀ e, (∀ child ∈ e.children, motive child) → motive e)
    (e : Expr) : motive e := by
  induction e with
  | literal span v => exact step _ (by simp [children])
  | name span path => exact step _ (by simp [children])
  | apply span f a hf ha => exact step _ (by simp [children, hf, ha])
  | binary span op l r hl hr => exact step _ (by simp [children, hl, hr])
  | unary span op x hx => exact step _ (by simp [children, hx])
  | lambda span x body hbody => exact step _ (by simp [children, hbody])
  | conditional span c a b hc ha hb => exact step _ (by simp [children, hc, ha, hb])
  | binding span x value body hvalue hbody => exact step _ (by simp [children, hvalue, hbody])

/-- The free uses of an expression are those of its parts, where the name it introduces is bound. -/
theorem freeUses_eq_flatMap (h : ∀ span path, e ≠ .name span path) (bound : List String) :
    e.freeUses bound = e.children.flatMap fun child => child.freeUses (e.binder?.toList ++ bound) := by
  cases e with
  | name span path => exact absurd rfl (h span path)
  | _ => simp [freeUses, children, binder?]

/-- **The names are listed by their positions**: each position that the relation has, with its name, once and in
    ascending order. -/
def Lists (names : List String) (Uses : List Nat → String → Prop) : Prop :=
  ∃ uses : List (List Nat × String), names = uses.map Prod.snd ∧
    uses.Pairwise (fun a b => List.Lex (· < ·) a.1 b.1) ∧ ∀ p x, (p, x) ∈ uses ↔ Uses p x

/-- The lists of the parts, one after the other, list the whole. -/
theorem Lists.children (lists : List (List String)) (Uses : Nat → List Nat → String → Prop) (first : Nat)
    (h : ∀ i names, lists[i]? = some names → Lists names (Uses (first + i))) :
    Lists lists.flatten fun p x => ∃ i q, p = (first + i) :: q ∧ i < lists.length ∧ Uses (first + i) q x := by
  induction lists generalizing first with
  | nil =>
    refine ⟨[], rfl, List.Pairwise.nil, fun p x => ?_⟩
    simp
  | cons names rest ih =>
    obtain ⟨uses, rfl, hsorted, huses⟩ := h 0 names rfl
    obtain ⟨more, hmore, hmoreSorted, hmoreUses⟩ := ih (first + 1) fun i names hi => by
      have hnext := h (i + 1) names hi
      rwa [← Nat.add_assoc, Nat.add_right_comm] at hnext
    refine ⟨uses.map (fun u => (first :: u.1, u.2)) ++ more, ?_, ?_, fun p x => ?_⟩
    · rw [flatten_cons, hmore, map_append, map_map]
      rfl
    · -- within the first part by what is below it, and between parts by their places
      refine pairwise_append.mpr ⟨pairwise_map.mpr (hsorted.imp .cons), hmoreSorted, ?_⟩
      intro a ha b hb
      obtain ⟨u, -, rfl⟩ := mem_map.mp ha
      obtain ⟨i, q, hq, -⟩ := (hmoreUses b.1 b.2).mp hb
      rw [hq]
      exact .rel (by omega)
    · rw [mem_append, mem_map, hmoreUses]
      constructor
      · rintro (⟨u, hu, heq⟩ | ⟨i, q, rfl, hi, hq⟩)
        · cases heq
          exact ⟨0, u.1, rfl, Nat.zero_lt_succ _, (huses u.1 u.2).mp hu⟩
        · refine ⟨i + 1, q, ?_, Nat.succ_lt_succ hi, ?_⟩
          · rw [← Nat.add_assoc, Nat.add_right_comm]
          · rwa [← Nat.add_assoc, Nat.add_right_comm]
      · rintro ⟨i, q, rfl, hi, hq⟩
        cases i with
        | zero => exact Or.inl ⟨(q, x), (huses q x).mpr hq, rfl⟩
        | succ i =>
          refine Or.inr ⟨i, q, ?_, Nat.lt_of_succ_lt_succ hi, ?_⟩
          · rw [Nat.add_right_comm, Nat.add_assoc]
          · rwa [Nat.add_right_comm, Nat.add_assoc]

/-- A name is used at the top, if it is unqualified and not bound. -/
theorem freeUses_lists_name (span : Span) (path : Path) (bound : List String) :
    Lists ((Expr.name span path).freeUses bound) fun p x => (Expr.name span path).UsesFreely p x ∧ x ∉ bound := by
  obtain ⟨home, y⟩ := path
  have huses : ∀ p x, (Expr.name span ⟨home, y⟩).UsesFreely p x ↔ p = [] ∧ home = none ∧ x = y := by
    intro p x
    cases p with
    | nil => simp [UsesFreely, at?, not_inScope_nil, eq_comm, and_comm]
    | cons i p => simp [UsesFreely, at?, children]
  simp only [huses]
  cases home with
  | some home => exact ⟨[], by simp [freeUses], List.Pairwise.nil, by simp⟩
  | none =>
    by_cases hbound : y ∈ bound
    · refine ⟨[], by simp [freeUses, hbound], List.Pairwise.nil, fun p x => ?_⟩
      simp only [not_mem_nil, false_iff]
      rintro ⟨⟨-, -, rfl⟩, hnot⟩
      exact hnot hbound
    · refine ⟨[([], y)], by simp [freeUses, hbound], pairwise_singleton _ _, fun p x => ?_⟩
      rw [mem_singleton, Prod.mk.injEq]
      constructor
      · rintro ⟨rfl, rfl⟩
        exact ⟨⟨rfl, rfl, rfl⟩, hbound⟩
      · rintro ⟨⟨rfl, -, rfl⟩, -⟩
        exact ⟨rfl, rfl⟩

/-- **`freeUses` lists the free uses** of the names that are not bound already. -/
theorem freeUses_lists (e : Expr) (bound : List String) :
    Lists (e.freeUses bound) fun p x => e.UsesFreely p x ∧ x ∉ bound := by
  induction e using Expr.childwise generalizing bound with
  | step e ih =>
    by_cases hname : ∃ span path, e = .name span path
    · obtain ⟨span, path, rfl⟩ := hname
      exact freeUses_lists_name span path bound
    · have hne : ∀ span path, e ≠ .name span path := fun span path h => hname ⟨span, path, h⟩
      have hparts := Lists.children (e.children.map (freeUses (e.binder?.toList ++ bound)))
        (fun i q x => ∃ child, e.children[i]? = some child ∧ child.UsesFreely q x ∧
          x ∉ e.binder?.toList ++ bound) 0 fun i names hi => by
        rw [getElem?_map] at hi
        obtain ⟨child, hchild, rfl⟩ := Option.map_eq_some_iff.mp hi
        obtain ⟨uses, huses, hsorted, hmem⟩ := ih child (mem_of_getElem? hchild) (e.binder?.toList ++ bound)
        refine ⟨uses, huses, hsorted, fun p x => (hmem p x).trans ?_⟩
        rw [Nat.zero_add, hchild]
        simp
      obtain ⟨uses, huses, hsorted, hmem⟩ := hparts
      refine ⟨uses, by rw [freeUses_eq_flatMap hne, flatMap_def, huses], hsorted, fun p x => ?_⟩
      rw [hmem]
      constructor
      · rintro ⟨i, q, rfl, -, child, hchild, hfree, hnot⟩
        rw [Nat.zero_add] at hchild ⊢
        rw [mem_append, not_or, Option.mem_toList] at hnot
        exact ⟨usesFreely_cons.mpr ⟨hnot.1, child, hchild, hfree⟩, hnot.2⟩
      · rintro ⟨hfree, hnot⟩
        cases p with
        | nil => exact absurd hfree (not_usesFreely_nil hne)
        | cons i q =>
          obtain ⟨hbinder, child, hchild, hfree⟩ := usesFreely_cons.mp hfree
          refine ⟨i, q, by rw [Nat.zero_add], ?_, child, by rw [Nat.zero_add, hchild], hfree, ?_⟩
          · rw [length_map]
            exact (List.getElem?_eq_some_iff.mp hchild).1
          · rw [mem_append, not_or, Option.mem_toList]
            exact ⟨hbinder, hnot⟩

/-! ## Free names -/

/-- **The free names are those with a free use.** -/
theorem mem_freeNames : x ∈ e.freeNames ↔ ∃ p, e.UsesFreely p x := by
  obtain ⟨uses, huses, -, hmem⟩ := e.freeUses_lists []
  rw [freeNames, mem_eraseDups, huses, mem_map]
  constructor
  · rintro ⟨⟨p, y⟩, hp, rfl⟩
    exact ⟨p, ((hmem p y).mp hp).1⟩
  · rintro ⟨p, hp⟩
    exact ⟨(p, x), (hmem p x).mpr ⟨hp, not_mem_nil⟩, rfl⟩

/-- Without repetitions, names follow each other as their first uses do. -/
theorem pairwise_eraseDups_map {R : List Nat → List Nat → Prop} {uses : List (List Nat × String)}
    (h : uses.Pairwise fun a b => R a.1 b.1) : (uses.map Prod.snd).eraseDups.Pairwise fun x y =>
      x ≠ y ∧ ∃ p, (p, x) ∈ uses ∧ ∀ q, (q, y) ∈ uses → R p q := by
  generalize hn : uses.length = n
  induction n using Nat.strongRecOn generalizing uses with
  | ind n ih =>
    cases uses with
    | nil => exact List.Pairwise.nil
    | cons u rest =>
      obtain ⟨p, x⟩ := u
      obtain ⟨hfirst, hrest⟩ := pairwise_cons.mp h
      have hfilter : (rest.map Prod.snd).filter (fun y => !y == x) = (rest.filter fun u => !u.2 == x).map Prod.snd := by
        rw [filter_map]
        rfl
      -- the later uses of the first name are dropped, and what follows is of other names
      have hother : ∀ {q y}, y ≠ x → (q, y) ∈ (p, x) :: rest → (q, y) ∈ rest.filter fun u => !u.2 == x := by
        intro q y hy hmem
        refine mem_filter.mpr ⟨(mem_cons.mp hmem).resolve_left fun heq => ?_, by simpa using hy⟩
        cases heq
        exact hy rfl
      have hne : ∀ y ∈ ((rest.filter fun u => !u.2 == x).map Prod.snd).eraseDups, y ≠ x := by
        intro y hy
        obtain ⟨u, hu, rfl⟩ := mem_map.mp (mem_eraseDups.mp hy)
        simpa using (mem_filter.mp hu).2
      have hlength : (rest.filter fun u => !u.2 == x).length < n := by
        have hle := length_filter_le (fun u : List Nat × String => !u.2 == x) rest
        rw [← hn, length_cons]
        omega
      rw [map_cons, eraseDups_cons, hfilter]
      refine pairwise_cons.mpr ⟨fun y hy => ?_, ?_⟩
      · refine ⟨(hne y hy).symm, p, mem_cons_self, fun q hq => ?_⟩
        exact hfirst _ (mem_of_mem_filter (hother (hne y hy) hq))
      · refine (ih _ hlength (hrest.sublist filter_sublist) rfl).imp_of_mem fun {y z} _ hz => ?_
        rintro ⟨hyz, q, hq, hbefore⟩
        refine ⟨hyz, q, mem_cons_of_mem _ (mem_of_mem_filter hq), fun r hr => ?_⟩
        exact hbefore r (hother (hne z hz) hr)

/-- **The free names are listed once each, by their first free uses.** -/
theorem freeNames_in_order (e : Expr) : e.freeNames.Pairwise fun x y =>
    x ≠ y ∧ ∃ p, e.UsesFreely p x ∧ ∀ q, e.UsesFreely q y → List.Lex (· < ·) p q := by
  obtain ⟨uses, huses, hsorted, hmem⟩ := e.freeUses_lists []
  rw [freeNames, huses]
  refine (pairwise_eraseDups_map hsorted).imp fun {x y} => ?_
  rintro ⟨hne, p, hp, hbefore⟩
  exact ⟨hne, p, ((hmem p x).mp hp).1, fun q hq => hbefore q ((hmem q y).mpr ⟨hq, not_mem_nil⟩)⟩

end Expr
end UnionTyping
