import UnionTyping.Proofs.Counterparts

/-!
# `Proofs.Reordering` — the order of declarations

A module is typed group by group, in an order that its free names give. Where no two declarations depend on each other
the groups are single declarations, and a module succeeds when its declarations do, one after the other (`Runs`).
Writing the declarations in another order leads to another such run. It is compared with the first one declaration by
declaration: the contexts in which a declaration is typed differ in their histories, but agree on what it uses, for
that comes earlier in both orders (`runs_follow`).

Names that are qualified with the module itself are not among the free names. A declaration that is used by such a
name only may come later in one order and earlier in another, and then the order does matter
(`own_module_is_no_dependency`).
-/

namespace UnionTyping

open List

open Relation (TransGen ReflTransGen)

/-! ## Types up to their variables -/

/-- **The types differ in their variables only**, which are renamed consistently. -/
def Ty.Variant (t u : Ty) : Prop :=
  ∃ ρ : TyVar → TyVar, (∀ v ∈ t.vars, ∀ w ∈ t.vars, ρ v = ρ w → v = w) ∧ Ty.Alike (fun v w => w = ρ v) t u

theorem Ty.Alike.variant {R : TyVar → TyVar → Prop} {t u : Ty} (hR : Pairing R) (h : Ty.Alike R t u) : t.Variant u := by
  have hpartner : ∀ v, ∃ w, (∃ w', R v w') → R v w := by
    intro v
    by_cases hv : ∃ w, R v w
    · exact hv.imp fun _ hvw _ => hvw
    · exact ⟨v, fun hv' => absurd hv' hv⟩
  choose ρ hρ using hpartner
  have hvars : ∀ v ∈ t.vars, R v (ρ v) := fun v hv =>
    hρ v (forall_of_forall₂ (P := fun v => ∃ w, R v w) h.vars (fun _ w hvw => ⟨w, hvw⟩) v hv)
  refine ⟨ρ, fun v hv w hw heq => ?_, h.mono fun v w hvw => hR.biUnique.2 hvw (hρ v ⟨w, hvw⟩)⟩
  exact hR.biUnique.1 (hvars v hv) (heq ▸ hvars w hw)

/-! ## What a declaration uses -/

/-- The names that an expression uses qualified with a module. -/
def Expr.qualifiedNames (home : String) : Expr → List String
  | .literal _ _ => []
  | .name _ p => if p.home = some home then [p.name] else []
  | .apply _ f a => f.qualifiedNames home ++ a.qualifiedNames home
  | .binary _ _ l r => l.qualifiedNames home ++ r.qualifiedNames home
  | .unary _ _ x => x.qualifiedNames home
  | .lambda _ _ b => b.qualifiedNames home
  | .conditional _ c a b => c.qualifiedNames home ++ a.qualifiedNames home ++ b.qualifiedNames home
  | .binding _ _ v b => v.qualifiedNames home ++ b.qualifiedNames home

/-- **What an expression uses counts** if the declarations of other modules do, and those of its own that it names. -/
theorem Expr.known_of_names {home : String} {L : Vocabulary} {e : Expr} {bound : List String}
    (hforeign : ∀ q x, q ≠ home → L.symbols (.declaration q x))
    (hfree : ∀ x ∈ e.freeUses bound, L.symbols (.declaration home x))
    (hown : ∀ x ∈ e.qualifiedNames home, L.symbols (.declaration home x)) : e.Known home L bound := by
  have hmodule : ∀ q x, (q = home → L.symbols (.declaration home x)) → L.symbols (.declaration q x) := by
    intro q x hx
    by_cases hq : q = home
    · exact hq ▸ hx hq
    · exact hforeign q x hq
  induction e generalizing bound with
  | literal span v => trivial
  | name span p =>
    obtain ⟨qualifier, x⟩ := p
    refine ⟨fun q hq => hmodule q x fun hhome => hown x ?_, fun hq hx => ?_⟩
    · simp_all [qualifiedNames]
    · have hdecl : L.symbols (.declaration home x) := hfree x (by simp_all [freeUses])
      exact ⟨hdecl, hmodule Builtin.home x fun _ => hdecl⟩
  | apply span f a ihf iha =>
    simp only [freeUses, qualifiedNames, forall_mem_append] at hfree hown
    exact ⟨ihf hfree.1 hown.1, iha hfree.2 hown.2⟩
  | binary span op l r ihl ihr =>
    simp only [freeUses, qualifiedNames, forall_mem_append] at hfree hown
    exact ⟨ihl hfree.1 hown.1, ihr hfree.2 hown.2⟩
  | unary span op y ih => exact ih hfree hown
  | lambda span y b ih => exact ih hfree hown
  | conditional span c a b ihc iha ihb =>
    simp only [freeUses, qualifiedNames, forall_mem_append] at hfree hown
    exact ⟨ihc hfree.1.1 hown.1.1, iha hfree.1.2 hown.1.2, ihb hfree.2 hown.2⟩
  | binding span y v b ihv ihb =>
    simp only [freeUses, qualifiedNames, forall_mem_append] at hfree hown
    exact ⟨ihv hfree.1 hown.1, ihb hfree.2 hown.2⟩

namespace Typing

open Check

/-- The declaration uses a declaration of the module by an unqualified name. -/
def Depends (decls : List Decl) (x y : Decl) : Prop :=
  y ∈ decls ∧ y.name.name ∈ x.body.freeNames

/-- The declaration uses a declaration of the module, by an unqualified name or by one that is qualified with the
    module. -/
def Refers (home : String) (decls : List Decl) (x y : Decl) : Prop :=
  Depends decls x y ∨ y ∈ decls ∧ y.name.name ∈ x.body.qualifiedNames home

/-! ## Runs -/

variable {home : String} {c d : Context} {xs ys : List Decl}

/-- **Declarations succeed one after the other.** -/
inductive Runs (home : String) : Context → List Decl → Context → Prop where
  | nil {c : Context} : Runs home c [] c
  | cons {c between d : Context} {x : Decl} {rest : List Decl} {done : List TypedDecl} :
      checkGroup home [x] c = (.ok done, between) → Runs home between rest d → Runs home c (x :: rest) d

namespace Runs

theorem append_iff : Runs home c (xs ++ ys) d ↔ ∃ between, Runs home c xs between ∧ Runs home between ys d := by
  induction xs generalizing c with
  | nil =>
    refine ⟨fun h => ⟨c, .nil, h⟩, ?_⟩
    rintro ⟨_, ⟨⟩, h⟩
    exact h
  | cons x rest ih =>
    constructor
    · rintro (_ | ⟨hx, hrest⟩)
      obtain ⟨between, hleft, hright⟩ := ih.mp hrest
      exact ⟨between, .cons hx hleft, hright⟩
    · rintro ⟨between, _ | ⟨hx, hleft⟩, hright⟩
      exact .cons hx (ih.mpr ⟨between, hleft, hright⟩)

theorem isolates (hc : Settled c) (h : Runs home c xs d) : Isolates (xs.map (declared home)) c d := by
  induction h with
  | nil => exact .refl hc
  | @cons c between d x rest done hx _ ih =>
    have hfirst := hc.checkGroup hx
    exact (hfirst.weaken (subset_append_left _ _)).trans
      ((ih hfirst.settled).weaken (subset_append_right [declared home x] _))

/-- A declaration that succeeds is defined beside the symbols that were. -/
theorem isDefined (h : Runs home c xs d) (l : Locator) : d.environment.isDefined l =
    (decide (l ∈ xs.map (declared home)) || c.environment.isDefined l) := by
  induction h with
  | nil => simp
  | cons hx _ ih =>
    obtain ⟨_, _, _, _, hdecl, -, rfl⟩ := checkGroup_sole.mp hx
    rw [ih, hdecl.environment, isDefined_redeclare, map_cons, decide_eq_decide.mpr mem_cons,
      Bool.decide_or, ← Bool.or_assoc, Bool.or_comm (decide (l ∈ List.map _ _))]

theorem modules (h : Runs home c xs d) : d.modules = c.modules := by
  induction h with
  | nil => rfl
  | cons hx _ ih =>
    obtain ⟨_, _, _, _, hdecl, -, rfl⟩ := checkGroup_sole.mp hx
    exact ih.trans hdecl.modules

end Runs

/-! ## Two runs -/

variable {decls : List Decl}

/-- **The declarations of a module in an order** in which none depends on a later one. -/
structure Orders (home : String) (decls order : List Decl) : Prop where
  covers : ∀ x, x ∈ order ↔ x ∈ decls
  once : (order.map (declared home)).Nodup
  ordered : order.Pairwise fun x y => y.name.name ∉ x.body.freeNames

/-- **What a declaration depends on**, directly or not, comes before it. -/
theorem Orders.mem_earlier {earlier later : List Decl} {x y : Decl} (h : Orders home decls (earlier ++ x :: later))
    (hpath : ReflTransGen (Depends decls) x y) : y = x ∨ y ∈ earlier := by
  induction hpath with
  | refl => exact Or.inl rfl
  | @tail y z _ hdepends ih =>
    -- a step from what comes first leads to what comes first
    obtain ⟨hz, huse⟩ := hdepends
    obtain ⟨-, hlater, hcross⟩ := pairwise_append.mp h.ordered
    rcases mem_append.mp ((h.covers z).mpr hz) with hearlier | hrest
    · exact Or.inr hearlier
    · rcases mem_cons.mp hrest with heq | hafter
      · exact Or.inl heq
      · rcases ih with rfl | hy
        · exact absurd huse ((pairwise_cons.mp hlater).1 z hafter)
        · exact absurd huse (hcross y hy z hrest)

/-- A declaration that has a name is not one of an operator, whatever its module is called. -/
theorem operator_ne_declared {name : String} {z : Decl} (hname : Grammar.isName name = false)
    (hz : Grammar.isName z.name.name = true) : Builtin.locator name ≠ declared home z := by
  intro heq
  rw [← (Locator.declaration.inj heq).2, hname] at hz
  cases hz

/-- **The symbols that count for a declaration**: all but those of declarations that are missing on a side. -/
def present (home : String) (missing : Decl → Prop) (hnamed : ∀ z, missing z → Grammar.isName z.name.name = true) :
    Vocabulary where
  symbols l := ∀ z, missing z → l ≠ declared home z
  locals _ _ _ := nofun
  binary op z hz := operator_ne_declared (by cases op <;> decide +kernel) (hnamed z hz)
  unary op z hz := operator_ne_declared (by cases op <;> decide +kernel) (hnamed z hz)

section Start

variable {start : Context} (hstart : Settled start) (hself : ∀ l, start.Agree start l)
include hstart hself

/-- **A declaration that has succeeded after some declarations succeeds after others**, if what it refers to is among
    both and means the same. -/
theorem next_follows {earlier done : List Decl} {before after : Context} {x : Decl} {typed : List TypedDecl}
    (hnamed : ∀ z ∈ decls, Grammar.isName z.name.name = true) (hearlier : earlier ⊆ decls) (hdone : done ⊆ decls)
    (hbefore : Runs home start earlier before) (hc : Runs home start done c)
    (hrefers : ∀ y, Refers home decls x y → y = x ∨ y ∈ earlier ∧ y ∈ done)
    (hagree : ∀ y ∈ earlier, y ∈ done → before.Agree c (declared home y))
    (hrun : checkGroup home [x] before = (.ok typed, after)) :
    ∃ typed' after', checkGroup home [x] c = (.ok typed', after') ∧ after.Agree after' (declared home x) := by
  let L := present home (fun z => z ∈ decls ∧ ¬(z = x ∨ z ∈ earlier ∧ z ∈ done)) fun z hz => hnamed z hz.1
  have hknown : x.body.Known home L [] := by
    refine Expr.known_of_names (fun q y hq z _ heq => hq (Locator.declaration.inj heq).1) ?_ ?_
    · intro y hy z hz heq
      obtain ⟨-, rfl⟩ := Locator.declaration.inj heq
      exact hz.2 (hrefers z (Or.inl ⟨hz.1, mem_eraseDups.mpr hy⟩))
    · intro y hy z hz heq
      obtain ⟨-, rfl⟩ := Locator.declaration.inj heq
      exact hz.2 (hrefers z (Or.inr ⟨hz.1, hy⟩))
  -- a symbol that counts is declared on both sides or on neither
  have hshared : ∀ k, L.symbols k → k ≠ declared home x → ∀ z ∈ decls, k = declared home z →
      z ∈ earlier ∧ z ∈ done := by
    intro k hk hother z hz heq
    by_contra hmissing
    refine hk z ⟨hz, ?_⟩ heq
    rintro (rfl | hboth)
    · exact hother heq
    · exact hmissing hboth
  have hboth : ∀ k, L.symbols k → k ≠ declared home x →
      (k ∈ earlier.map (declared home) ↔ k ∈ done.map (declared home)) := by
    intro k hk hother
    constructor
    · intro hmem
      obtain ⟨z, hz, rfl⟩ := mem_map.mp hmem
      exact mem_map_of_mem (hshared _ hk hother z (hearlier hz) rfl).2
    · intro hmem
      obtain ⟨z, hz, rfl⟩ := mem_map.mp hmem
      exact mem_map_of_mem (hshared _ hk hother z (hdone hz) rfl).1
  have hleft := hbefore.isolates hstart
  have hright := hc.isolates hstart
  refine checkGroup_follows hleft.settled hright.settled (hbefore.modules.trans hc.modules.symm) hknown ?_ ?_ hrun
  · intro k hk hother
    rw [hbefore.isDefined, hc.isDefined, decide_eq_decide.mpr (hboth k hk hother)]
  · intro k hk hother
    by_cases hmem : k ∈ earlier.map (declared home)
    · obtain ⟨z, hz, rfl⟩ := mem_map.mp hmem
      exact hagree z hz (hshared _ hk hother z (hearlier hz) rfl).2
    · -- the symbol is what it was at the start
      have hmem' : k ∉ done.map (declared home) := mt (hboth k hk hother).mpr hmem
      have hfirst := (hleft.agree_iff hstart hmem).mpr (hself k)
      exact ((hright.agree_iff hstart hmem').mpr hfirst.symm).symm

/-- **A run in one order leads to a run in any other one**, at whose end every declaration means the same.

    The induction is over the other order. What has been declared so far means there what it means at the end of the
    first run; the next declaration has its place in the first run, and what it refers to comes before it in both. -/
theorem runs_follow (hnamed : ∀ z ∈ decls, Grammar.isName z.name.name = true)
    (hrefers : ∀ x ∈ decls, ∀ y, Refers home decls x y → ReflTransGen (Depends decls) x y)
    (hxs : Orders home decls xs) (hys : Orders home decls ys) (hrun : Runs home start xs d) :
    ∃ d', Runs home start ys d' ∧ ∀ y ∈ ys, d.Agree d' (declared home y) := by
  suffices hprefix : ∀ done todo, ys = done ++ todo →
      ∃ c, Runs home start done c ∧ ∀ y ∈ done, d.Agree c (declared home y) from
    hprefix ys [] (append_nil ys).symm
  intro done
  induction done using List.reverseRecOn with
  | nil => exact fun _ _ => ⟨start, .nil, by simp⟩
  | append_singleton done x ih =>
    intro todo hsplit
    rw [append_assoc, singleton_append] at hsplit
    obtain ⟨c, hc, hagree⟩ := ih (x :: todo) hsplit
    rw [hsplit] at hys
    have hx : x ∈ decls := (hys.covers x).mp (mem_append_right _ mem_cons_self)
    obtain ⟨earlier, later, rfl⟩ := append_of_mem ((hxs.covers x).mpr hx)
    obtain ⟨before, hbefore, hrest⟩ := Runs.append_iff.mp hrun
    have hbeforeSettled := (hbefore.isolates hstart).settled
    have hcSettled := (hc.isolates hstart).settled
    have hremaining := hrest.isolates hbeforeSettled
    obtain _ | ⟨hcheck, hlater⟩ := hrest
    -- no symbol is declared twice in either order
    obtain ⟨-, hrestOnce, hfirst⟩ := nodup_append.mp (map_append ▸ hxs.once)
    obtain ⟨-, -, hfirst'⟩ := nodup_append.mp (map_append ▸ hys.once)
    have hboth : ∀ y, Refers home decls x y → y = x ∨ y ∈ earlier ∧ y ∈ done := by
      intro y hy
      have hpath := hrefers x hx y hy
      rcases hxs.mem_earlier hpath with heq | hleft
      · exact Or.inl heq
      · exact (hys.mem_earlier hpath).imp_right fun hright => ⟨hleft, hright⟩
    have hbeforeAgrees : ∀ y ∈ earlier, y ∈ done → before.Agree c (declared home y) := by
      intro y hleft hright
      refine (hremaining.agree_iff hbeforeSettled fun hmem => ?_).mp (hagree y hright)
      exact hfirst _ (mem_map_of_mem hleft) _ hmem rfl
    obtain ⟨typed', after', hcheck', hnew⟩ := next_follows hstart hself hnamed
      (fun z hz => (hxs.covers z).mp (mem_append_left _ hz))
      (fun z hz => (hys.covers z).mp (mem_append_left _ hz)) hbefore hc hboth hbeforeAgrees hcheck
    refine ⟨after', Runs.append_iff.mpr ⟨c, hc, .cons hcheck' .nil⟩, fun y hy => ?_⟩
    rcases mem_append.mp hy with hy | hy
    · refine (((hcSettled.checkGroup hcheck').agree_iff hcSettled fun hmem => ?_).mpr (hagree y hy).symm).symm
      exact hfirst' _ (mem_map_of_mem hy) _ (mem_cons.mpr (Or.inl (mem_singleton.mp hmem))) rfl
    · have hafter := (hbeforeSettled.checkGroup hcheck).settled
      rw [mem_singleton.mp hy]
      exact ((hlater.isolates hafter).agree_iff hafter (nodup_cons.mp hrestOnce).1).mpr hnew

end Start

/-! ## The order of a module -/

/-- The declarations of a module in the order in which they are typed. -/
def typingOrder (decls : List Decl) : List Decl :=
  groupDecls decls (dependencies decls).groups.flatten

/-- Places of a module are those of its declarations. -/
theorem mem_places {i : Nat} : i ∈ (dependencies decls).groups.flatten ↔ i < decls.length := by
  rw [(dependencies_arrange decls).covers, dependencies_eq_build, Dependency.Action.mem_keys_build]
  constructor
  · rintro ⟨action, haction, hi⟩
    obtain ⟨⟨x, j⟩, hx, haction⟩ := mem_flatMap.mp haction
    have hj : j < decls.length := (List.getElem?_eq_some_iff.mp (mem_zipIdx_iff_getElem?.mp hx)).1
    rcases mem_cons.mp haction with rfl | haction
    · exact mem_singleton.mp hi ▸ hj
    · obtain ⟨name, -, hname⟩ := mem_filterMap.mp haction
      obtain ⟨m, hm, rfl⟩ := Option.map_eq_some_iff.mp hname
      have hm : m < decls.length := (findIdx?_eq_some_iff_getElem.mp hm).1
      rcases mem_cons.mp hi with rfl | hi
      · exact hj
      · exact mem_singleton.mp hi ▸ hm
  · intro hi
    refine ⟨.entry i, mem_flatMap.mpr ⟨(decls[i], i), ?_, mem_cons_self⟩, mem_cons_self⟩
    exact mem_zipIdx_iff_getElem?.mpr (getElem?_eq_getElem hi)

/-- A dependency between places is one between declarations. -/
theorem depends_of_needs {k m : Nat} (h : Dependency.Action.Needs (dependencyActions decls) k m) :
    ∃ x y, decls[k]? = some x ∧ decls[m]? = some y ∧ Depends decls x y := by
  obtain ⟨⟨x, j⟩, hx, haction⟩ := mem_flatMap.mp h
  rcases mem_cons.mp haction with heq | haction
  · cases heq
  · obtain ⟨name, hname, hfind⟩ := mem_filterMap.mp haction
    obtain ⟨m', hm, heq⟩ := Option.map_eq_some_iff.mp hfind
    cases heq
    obtain ⟨hlt, hsame, -⟩ := findIdx?_eq_some_iff_getElem.mp hm
    refine ⟨x, decls[m], mem_zipIdx_iff_getElem?.mp hx, getElem?_eq_getElem hlt, getElem_mem hlt, ?_⟩
    rwa [of_decide_eq_true hsame]

/-- So is a chain of dependencies. -/
theorem path_of_needs {k m : Nat} (h : TransGen (Dependency.Action.Needs (dependencyActions decls)) k m) {x y : Decl}
    (hx : decls[k]? = some x) (hy : decls[m]? = some y) : TransGen (Depends decls) x y := by
  induction h generalizing y with
  | single h =>
    obtain ⟨x', y', hx', hy', hdepends⟩ := depends_of_needs h
    cases hx.symm.trans hx'
    cases hy.symm.trans hy'
    exact .single hdepends
  | tail _ h ih =>
    obtain ⟨z, y', hz, hy', hdepends⟩ := depends_of_needs h
    cases hy.symm.trans hy'
    exact (ih hz).tail hdepends

/-- No two declarations depend on each other. -/
def Acyclic (R : Decl → Decl → Prop) : Prop :=
  ∀ x y, TransGen R x y → TransGen R y x → x = y

theorem Acyclic.of_refers (h : Acyclic (Refers home decls)) : Acyclic (Depends decls) := by
  have hle : ∀ x y, Depends decls x y → Refers home decls x y := fun _ _ => Or.inl
  exact fun x y hxy hyx => h x y (TransGen.mono hle x y hxy) (TransGen.mono hle y x hyx)

/-- **Declarations that refer to none behind them** in some order do not refer to each other. -/
theorem acyclic_of_order (order : List Decl) (hmem : decls ⊆ order)
    (hle : ∀ x ∈ decls, ∀ y ∈ decls, y.name.name ∈ x.body.freeNames ++ x.body.qualifiedNames home →
      order.idxOf y ≤ order.idxOf x) : Acyclic (Refers home decls) := by
  have hstep : ∀ {x y}, Refers home decls x y → y ∈ decls ∧ (x ∈ decls → order.idxOf y ≤ order.idxOf x) := by
    rintro x y (⟨hy, huse⟩ | ⟨hy, huse⟩)
    · exact ⟨hy, fun hx => hle x hx y hy (mem_append_left _ huse)⟩
    · exact ⟨hy, fun hx => hle x hx y hy (mem_append_right _ huse)⟩
  have hpath : ∀ {x y}, TransGen (Refers home decls) x y → y ∈ decls ∧ (x ∈ decls → order.idxOf y ≤ order.idxOf x) := by
    intro x y h
    induction h with
    | single h => exact hstep h
    | tail _ h ih => exact ⟨(hstep h).1, fun hx => Nat.le_trans ((hstep h).2 ih.1) (ih.2 hx)⟩
  intro x y hxy hyx
  obtain ⟨hy, hyle⟩ := hpath hxy
  obtain ⟨hx, hxle⟩ := hpath hyx
  exact (idxOf_inj (hmem hx)).mp (Nat.le_antisymm (hxle hy) (hyle hx))

section Acyclic

variable (hnames : (decls.map fun d => d.name.name).Nodup) (hacyclic : Acyclic (Depends decls))
include hnames hacyclic

/-- **Groups are single declarations** where no two declarations depend on each other. -/
theorem groups_sole : ∀ group ∈ (dependencies decls).groups, ∃ i, group = [i] := by
  have harranges := dependencies_arrange decls
  intro group hgroup
  obtain ⟨i, rest, rfl⟩ := exists_cons_of_ne_nil (harranges.inhabited group hgroup)
  cases rest with
  | nil => exact ⟨i, rfl⟩
  | cons j more =>
    exfalso
    have hlt : i < j := (pairwise_cons.mp (harranges.ascending _ hgroup)).1 j mem_cons_self
    have hmutual := (harranges.components _ hgroup i mem_cons_self j).mp (by simp)
    rw [Dependency.reflTransGen_loopless, Dependency.reflTransGen_loopless, Dependency.mutual_iff] at hmutual
    have hplace : ∀ k ∈ i :: j :: more, k < decls.length :=
      fun k hk => mem_places.mp (mem_flatten.mpr ⟨_, hgroup, hk⟩)
    have hi := hplace i mem_cons_self
    have hj := hplace j (by simp)
    rcases hmutual with heq | ⟨hij, hji⟩
    · omega
    · -- the same declaration has one place
      have hsame := hacyclic decls[i] decls[j] (path_of_needs hij (getElem?_eq_getElem hi) (getElem?_eq_getElem hj))
        (path_of_needs hji (getElem?_eq_getElem hj) (getElem?_eq_getElem hi))
      have heq := (hnames.of_map _).getElem_inj_iff.mp hsame
      omega

omit hnames hacyclic in
/-- Groups of one are their places. -/
theorem eq_map_flatten {groups : List (List Nat)} (h : ∀ group ∈ groups, ∃ i, group = [i]) :
    groups = groups.flatten.map fun i => [i] := by
  induction groups with
  | nil => rfl
  | cons group rest ih =>
    obtain ⟨⟨i, rfl⟩, hrest⟩ := forall_mem_cons.mp h
    exact congrArg ([i] :: ·) (ih hrest)

/-- **A module is typed in an order** in which no declaration depends on a later one. -/
theorem typingOrder_orders (home : String) : Orders home decls (typingOrder decls) := by
  have harranges := dependencies_arrange decls
  refine ⟨fun x => ⟨mem_groupDecls, fun hx => ?_⟩, ?_, ?_⟩
  · obtain ⟨i, hi⟩ := getElem?_of_mem hx
    exact mem_filterMap.mpr ⟨i, mem_places.mpr (List.getElem?_eq_some_iff.mp hi).1, hi⟩
  · have hsymbols := groupSymbols_nodup home hnames
    rwa [flatMap_groupSymbols] at hsymbols
  · have hordered := harranges.ordered
    rw [eq_map_flatten (groups_sole hnames hacyclic), pairwise_map] at hordered
    refine (hordered.and harranges.once).filterMap _ fun k m hkm x hx y hy huse => ?_
    exact hkm.1 k mem_cons_self m mem_cons_self ⟨hkm.2, needs_of_use hnames hx hy huse⟩

end Acyclic

/-! ## Modules -/

theorem groupDecls_cons {i : Nat} (hi : i < decls.length) (rest : List Nat) :
    groupDecls decls (i :: rest) = decls[i] :: groupDecls decls rest :=
  filterMap_cons_some (getElem?_eq_getElem hi)

/-- **Groups of one are a run**, and what is typed for a place is the declaration there. -/
theorem checkGroups_sole {places : List Nat} (hplaces : ∀ i ∈ places, i < decls.length)
    {typed : List (Nat × TypedDecl)} (h : checkGroups home decls (places.map fun i => [i]) c = (.ok typed, d)) :
    Runs home c (groupDecls decls places) d ∧ typed.map Prod.fst = places ∧
      ∀ e ∈ typed, decls[e.1]?.map (declared home) = some e.2.symbol := by
  induction places generalizing c typed with
  | nil =>
    cases h
    exact ⟨.nil, rfl, by simp⟩
  | cons i rest ih =>
    obtain ⟨hi, hrest⟩ := forall_mem_cons.mp hplaces
    obtain ⟨done, between, more, hdone, hmore, rfl⟩ := checkGroups_cons_ok.mp h
    rw [groupDecls_cons hi] at hdone
    obtain ⟨hruns, hfst, hsymbols⟩ := ih hrest hmore
    obtain ⟨_, body, _, after, -, hsole, -⟩ := checkGroup_sole.mp hdone
    have hfirst : (([i].filterMap fun i => decls[i]?.map fun d => (i, d)).map Prod.fst).zip done =
        [(i, ⟨declared home decls[i], after.expose (openDecl home decls[i] c).1, body, decls[i].span⟩)] := by
      simp [getElem?_eq_getElem hi, hsole]
    rw [hfirst, groupDecls_cons hi]
    refine ⟨.cons hdone hruns, congrArg (i :: ·) hfst, forall_mem_cons.mpr ⟨?_, hsymbols⟩⟩
    rw [getElem?_eq_getElem hi, Option.map_some]

theorem checkGroups_of_runs {places : List Nat} (hplaces : ∀ i ∈ places, i < decls.length)
    (h : Runs home c (groupDecls decls places) d) :
    ∃ typed, checkGroups home decls (places.map fun i => [i]) c = (.ok typed, d) := by
  induction places generalizing c with
  | nil =>
    cases h
    exact ⟨[], rfl⟩
  | cons i rest ih =>
    obtain ⟨hi, hrest⟩ := forall_mem_cons.mp hplaces
    rw [groupDecls_cons hi] at h
    obtain _ | ⟨hdone, hruns⟩ := h
    obtain ⟨more, hmore⟩ := ih hrest hruns
    have hsole := (congrArg (checkGroup home · c) (groupDecls_cons hi [])).trans hdone
    exact ⟨_, checkGroups_cons_ok.mpr ⟨_, _, more, hsole, hmore, rfl⟩⟩

/-- What is found at the places of a list is the list. -/
theorem filterMap_range {α β : Type} (xs : List α) (f : α → β) :
    ((List.range xs.length).filterMap fun i => xs[i]?.map f) = xs.map f := by
  induction xs with
  | nil => rfl
  | cons x rest ih =>
    rw [length_cons, range_succ_eq_map, filterMap_cons, filterMap_map]
    exact congrArg (f x :: ·) ih

section Program

variable {p : Program} (hnames : (p.decls.map fun d => d.name.name).Nodup) (hacyclic : Acyclic (Depends p.decls))
include hnames hacyclic

/-- **A module that succeeds is a run**, and its declarations come out in the order in which they are written. -/
theorem checkProgram_sole {r : TypedProgram} (h : checkProgram p c = (.ok r, d)) :
    Runs p.home (c.addModule p.home) (typingOrder p.decls) d ∧
      r.decls.map TypedDecl.symbol = p.decls.map (declared p.home) := by
  obtain ⟨typed, htyped, rfl⟩ := checkProgram_ok h
  rw [eq_map_flatten (groups_sole hnames hacyclic)] at htyped
  obtain ⟨hruns, hfst, hsymbols⟩ := checkGroups_sole (fun i hi => mem_places.mp hi) htyped
  refine ⟨hruns, ?_⟩
  rw [map_filterMap, ← filterMap_range]
  refine filterMap_congr fun i hi => ?_
  cases hfound : typed.lookup i with
  | some y => exact (hsymbols (i, y) (mem_of_lookup hfound)).symm
  | none =>
    have hplace : i ∈ typed.map Prod.fst := hfst ▸ mem_places.mpr (mem_range.mp hi)
    obtain ⟨e, he, rfl⟩ := mem_map.mp hplace
    simpa using lookup_eq_none_iff.mp hfound e he

theorem checkProgram_of_runs (h : Runs p.home (c.addModule p.home) (typingOrder p.decls) d) :
    ∃ r, checkProgram p c = (.ok r, d) := by
  obtain ⟨typed, htyped⟩ := checkGroups_of_runs (fun i hi => mem_places.mp hi) h
  rw [← eq_map_flatten (groups_sole hnames hacyclic)] at htyped
  have hduplicate : duplicate? [] p.decls = none :=
    duplicate?_eq_none_iff.mpr ⟨hnames, fun _ _ => not_mem_nil⟩
  refine ⟨⟨p.home, (List.range p.decls.length).filterMap fun i => typed.lookup i⟩, ?_⟩
  simp only [checkProgram, run_bind, run_modify]
  rw [hduplicate]
  exact bind_ok.mpr ⟨typed, d, htyped, rfl⟩

end Program

/-- **The declarations of the module can be typed one after the other**: they have different names, no two depend on
    each other, and whatever one refers to it depends on, directly or not. -/
structure Sequential (p : Program) : Prop where
  named : ∀ x ∈ p.decls, Grammar.isName x.name.name = true
  distinct : (p.decls.map fun d => d.name.name).Nodup
  acyclic : Acyclic (Depends p.decls)
  visible : ∀ x ∈ p.decls, ∀ y, Refers p.home p.decls x y → ReflTransGen (Depends p.decls) x y

theorem depends_perm {decls' : List Decl} (h : decls'.Perm decls) : Depends decls' = Depends decls := by
  funext x y
  rw [Depends, Depends, h.mem_iff]

section Reordered

variable {p q : Program} (hp : Sequential p) (hhome : q.home = p.home) (hperm : q.decls.Perm p.decls)
include hp hhome hperm

theorem Sequential.perm : Sequential q := by
  obtain ⟨home, decls⟩ := q
  cases hhome
  refine ⟨fun x hx => hp.named x (hperm.mem_iff.mp hx), (hperm.map _).nodup_iff.mpr hp.distinct, ?_, ?_⟩
  · exact depends_perm hperm ▸ hp.acyclic
  · intro x hx y hxy
    rw [Refers, depends_perm hperm, hperm.mem_iff] at hxy
    rw [depends_perm hperm]
    exact hp.visible x (hperm.mem_iff.mp hx) y hxy

/-- **A module succeeds if another order of its declarations does**, and every declaration means the same. -/
theorem checkProgram_follows {main : String} {tracing : Bool} {r : TypedProgram}
    (h : checkProgram p (.new main tracing) = (.ok r, d)) :
    ∃ r' d', checkProgram q (.new main tracing) = (.ok r', d') ∧ ∀ x ∈ p.decls, d.Agree d' (declared p.home x) := by
  have hq := hp.perm hhome hperm
  obtain ⟨home, decls⟩ := q
  cases hhome
  have horders := typingOrder_orders hq.distinct hq.acyclic p.home
  let start := (Input.program p).load (.new main tracing)
  have hself : ∀ l, start.Agree start l := by
    intro l
    obtain ⟨hstore, henv, -⟩ := (Input.program p).load_state (.new main tracing)
    rw [Context.Agree, hstore, henv]
    exact new_agree main tracing l
  obtain ⟨d', hrun', hagree⟩ := runs_follow ((new_settled main tracing).load (.program p)) hself hp.named hp.visible
    (typingOrder_orders hp.distinct hp.acyclic p.home)
    ⟨fun x => (horders.covers x).trans hperm.mem_iff, horders.once, horders.ordered⟩
    (checkProgram_sole hp.distinct hp.acyclic h).1
  obtain ⟨r', hr'⟩ := checkProgram_of_runs (p := ⟨p.home, decls⟩) hq.distinct hq.acyclic hrun'
  exact ⟨r', d', hr', fun x hx => hagree x ((horders.covers x).mpr (hperm.mem_iff.mpr hx))⟩

end Reordered

/-- The type of a declaration is what is seen of the only candidate of its symbol. -/
theorem checkProgram_type {p : Program} {r : TypedProgram} (hc : Calm c)
    (hnames : (p.decls.map fun d => d.name.name).Nodup) (h : checkProgram p c = (.ok r, d)) :
    ∀ y ∈ r.decls, ∃ t, d.environment.candidates y.symbol = [t] ∧ d.expose t = y.type := by
  obtain ⟨typed, htyped, rfl⟩ := checkProgram_ok h
  obtain ⟨-, htypes⟩ := checkGroups_ok (hc.load (.program p)) (groupSymbols_nodup p.home hnames) htyped
  intro y hy
  obtain ⟨i, -, hfound⟩ := mem_filterMap.mp hy
  exact htypes (i, y) (mem_of_lookup hfound)

theorem isOk_iff {ε α : Type} {x : Except ε α} : x.isOk = true ↔ ∃ a, x = .ok a := by
  cases x with
  | error e => exact ⟨nofun, nofun⟩
  | ok a => exact ⟨fun _ => ⟨a, rfl⟩, fun _ => rfl⟩

/-- **The order of declarations does not matter.** Let a module that was read have declarations of different names, of
    which no two refer to each other in a cycle, and let each of them depend, directly or not and by unqualified names,
    on what it refers to by names that are qualified with the module. If its declarations are written in another order,
    then checking it in a new context succeeds for both orders or for neither. If it succeeds, the declarations come
    out in the order in which they are written, and each has the same type in both, up to the names of variables. -/
theorem declaration_order_is_irrelevant {source : Nat} {home text : String} {p q : Program}
    (hparsed : parseProgram source home text = .ok p) (hnames : (p.decls.map fun d => d.name.name).Nodup)
    (hacyclic : Acyclic (Refers p.home p.decls))
    (hvisible : ∀ x ∈ p.decls, ∀ y ∈ p.decls, y.name.name ∈ x.body.qualifiedNames p.home →
      ReflTransGen (Depends p.decls) x y)
    (hhome : q.home = p.home) (hperm : q.decls.Perm p.decls) (main : String) (tracing : Bool) :
    let c := Context.new main tracing
    (checkProgram p c).1.isOk = (checkProgram q c).1.isOk ∧
    ∀ r r', (checkProgram p c).1 = .ok r → (checkProgram q c).1 = .ok r' →
      r.decls.map TypedDecl.symbol = p.decls.map (declared p.home) ∧
      r'.decls.map TypedDecl.symbol = q.decls.map (declared q.home) ∧
      ∀ y ∈ r.decls, ∀ y' ∈ r'.decls, y.symbol = y'.symbol → y.type.Variant y'.type := by
  have hp : Sequential p := by
    refine ⟨Grammar.isName_of_parseProgram hparsed, hnames, hacyclic.of_refers, fun x hx y hxy => ?_⟩
    rcases hxy with hdepends | ⟨hy, huse⟩
    · exact .single hdepends
    · exact hvisible x hx y hy huse
  have hq := hp.perm hhome hperm
  intro c
  refine ⟨Bool.eq_iff_iff.mpr (isOk_iff.trans (Iff.trans ⟨?_, ?_⟩ isOk_iff.symm)), fun r r' hr hr' => ?_⟩
  · rintro ⟨r, hr⟩
    obtain ⟨r', d', hrun', -⟩ := checkProgram_follows hp hhome hperm (Prod.ext hr rfl)
    exact ⟨r', congrArg Prod.fst hrun'⟩
  · rintro ⟨r', hr'⟩
    obtain ⟨r, d, hrun, -⟩ := checkProgram_follows hq hhome.symm hperm.symm (Prod.ext hr' rfl)
    exact ⟨r, congrArg Prod.fst hrun⟩
  · have hrun : checkProgram p c = (.ok r, (checkProgram p c).2) := Prod.ext hr rfl
    obtain ⟨r'', d', hrun', hagree⟩ := checkProgram_follows hp hhome hperm hrun
    cases hr'.symm.trans (congrArg Prod.fst hrun')
    have hsymbols := (checkProgram_sole hp.distinct hp.acyclic hrun).2
    refine ⟨hsymbols, (checkProgram_sole hq.distinct hq.acyclic hrun').2, fun y hy y' hy' hsame => ?_⟩
    obtain ⟨t, ht, htype⟩ := checkProgram_type (new_calm main tracing) hp.distinct hrun y hy
    obtain ⟨t', ht', htype'⟩ := checkProgram_type (new_calm main tracing) hq.distinct hrun' y' hy'
    obtain ⟨x, hx, hsymbol⟩ := List.mem_map.mp (hsymbols ▸ List.mem_map_of_mem hy)
    obtain ⟨R, hmirrors, -, halike⟩ := hagree x hx
    rw [hsymbol, ht, hsame, ht'] at halike
    rw [← htype, ← htype']
    exact (hmirrors.expose (List.forall₂_cons.mp halike).1).variant hmirrors.pairing

/-- In `id = x -> x`, `m = y -> id y`, `loop = w -> main.id (loop (m w))` and `k = u -> v -> u` the third declaration
    depends on the first one through the second, besides referring to it. Written backwards, the fourth declaration is
    typed first, and variables have other names. -/
theorem declaration_order_is_irrelevant_backwards :
    let p : Program := ⟨"main",
      [⟨⟨"id", ⟨0, 0, 2⟩⟩, .lambda ⟨0, 5, 11⟩ ⟨"x", ⟨0, 5, 6⟩⟩ (.name ⟨0, 10, 11⟩ ⟨none, "x"⟩), ⟨0, 0, 11⟩⟩,
       ⟨⟨"m", ⟨0, 12, 13⟩⟩, .lambda ⟨0, 16, 25⟩ ⟨"y", ⟨0, 16, 17⟩⟩ (.apply ⟨0, 21, 25⟩
          (.name ⟨0, 21, 23⟩ ⟨none, "id"⟩) (.name ⟨0, 24, 25⟩ ⟨none, "y"⟩)), ⟨0, 12, 25⟩⟩,
       ⟨⟨"loop", ⟨0, 26, 30⟩⟩, .lambda ⟨0, 33, 58⟩ ⟨"w", ⟨0, 33, 34⟩⟩ (.apply ⟨0, 38, 58⟩
          (.name ⟨0, 38, 45⟩ ⟨some "main", "id"⟩) (.apply ⟨0, 46, 58⟩ (.name ⟨0, 47, 51⟩ ⟨none, "loop"⟩)
            (.apply ⟨0, 52, 57⟩ (.name ⟨0, 53, 54⟩ ⟨none, "m"⟩) (.name ⟨0, 55, 56⟩ ⟨none, "w"⟩)))), ⟨0, 26, 58⟩⟩,
       ⟨⟨"k", ⟨0, 59, 60⟩⟩, .lambda ⟨0, 63, 74⟩ ⟨"u", ⟨0, 63, 64⟩⟩ (.lambda ⟨0, 68, 74⟩ ⟨"v", ⟨0, 68, 69⟩⟩
          (.name ⟨0, 73, 74⟩ ⟨none, "u"⟩)), ⟨0, 59, 74⟩⟩]⟩
    let q : Program := ⟨"main", p.decls.reverse⟩
    let c := Context.new "main" false
    parseProgram 0 "main" "id = x -> x\nm = y -> id y\nloop = w -> main.id (loop (m w))\nk = u -> v -> u" = .ok p ∧
    (checkProgram p c).1.toOption.map (fun r => r.decls.map fun y => y.type.text) =
      some ["'t3 -> 't3", "'t10 -> 't10", "'t15 -> 't17", "'t5 -> 't6 -> 't5"] ∧
    (checkProgram q c).1.toOption.map (fun r => r.decls.map fun y => y.type.text) =
      some ["'t3 -> 't4 -> 't3", "'t15 -> 't17", "'t10 -> 't10", "'t6 -> 't6"] ∧
    ∀ r r', (checkProgram p c).1 = .ok r → (checkProgram q c).1 = .ok r' →
      ∀ y ∈ r.decls, ∀ y' ∈ r'.decls, y.symbol = y'.symbol → y.type.Variant y'.type := by
  intro p q c
  have hparsed : parseProgram 0 "main"
      "id = x -> x\nm = y -> id y\nloop = w -> main.id (loop (m w))\nk = u -> v -> u" = .ok p := by decide +kernel
  have hacyclic : Acyclic (Refers p.home p.decls) :=
    acyclic_of_order p.decls (fun x hx => hx) (by decide +kernel)
  -- between the two declarations there is a third one
  have hbetween : ∀ x ∈ p.decls, ∀ y ∈ p.decls, y.name.name ∈ x.body.qualifiedNames p.home →
      ∃ z ∈ p.decls, z.name.name ∈ x.body.freeNames ∧ y.name.name ∈ z.body.freeNames := by decide +kernel
  have hvisible : ∀ x ∈ p.decls, ∀ y ∈ p.decls, y.name.name ∈ x.body.qualifiedNames p.home →
      ReflTransGen (Depends p.decls) x y := by
    intro x hx y hy huse
    obtain ⟨z, hz, hxz, hzy⟩ := hbetween x hx y hy huse
    exact .tail (.single ⟨hz, hxz⟩) ⟨hy, hzy⟩
  refine ⟨hparsed, by decide +kernel, by decide +kernel, fun r r' hr hr' => ?_⟩
  exact ((declaration_order_is_irrelevant (q := q) hparsed (by decide) hacyclic hvisible rfl (List.reverse_perm _)
    "main" false).2 r r' hr hr').2.2

/-- **A name that is qualified with the module itself is no dependency.** Of `a = main.b` and `b = 1` the first
    declaration refers to the second, and not the other way round. Both are of their own groups, in the order in which
    they are written: the module fails, and written backwards it succeeds. -/
theorem own_module_is_no_dependency :
    let p : Program := ⟨"main",
      [⟨⟨"a", ⟨0, 0, 1⟩⟩, .name ⟨0, 4, 10⟩ ⟨some "main", "b"⟩, ⟨0, 0, 10⟩⟩,
       ⟨⟨"b", ⟨0, 11, 12⟩⟩, .literal ⟨0, 15, 16⟩ (.integer 1), ⟨0, 11, 16⟩⟩]⟩
    let q : Program := ⟨"main", p.decls.reverse⟩
    let c := Context.new "main" false
    parseProgram 0 "main" "a = main.b\nb = 1" = .ok p ∧ (p.decls.map fun d => d.name.name).Nodup ∧
    Acyclic (Refers p.home p.decls) ∧ q.home = p.home ∧ q.decls.Perm p.decls ∧
    (checkProgram p c).1.isOk = false ∧ (checkProgram q c).1.isOk = true := by
  intro p q c
  have hacyclic : Acyclic (Refers p.home p.decls) := acyclic_of_order q.decls (by decide +kernel) (by decide +kernel)
  exact ⟨by decide +kernel, by decide, hacyclic, rfl, List.reverse_perm _, by decide +kernel, by decide +kernel⟩

end Typing
end UnionTyping
