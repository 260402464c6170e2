import UnionTyping.Proofs.Declared

/-!
# `Proofs.Aftermath` — what a failed check leaves behind

A module fails with one of its groups, in a body, between a body and its variable, or when the group is handed
on. By then the groups before it have been declared, and stay so. The group itself is withdrawn, also where its
names were declared by an earlier module: those declarations were forgotten when the group began. All other
symbols are the same as before, those of the groups that were still to come included. An expression that fails
leaves everything the same (`failed_check_leaves`).
-/

namespace UnionTyping

open List

namespace Typing

/-- **What is left of a module that fails with one of its groups**, where the declarations `typed` came of the
    groups before it. -/
structure Aftermath (home : String) (decls : List Decl) (earlier : List (List Nat)) (group : List Nat)
    (typed : List TypedDecl) (c d : Context) : Prop where
  declared : typed.map TypedDecl.symbol = earlier.flatMap (groupSymbols home decls)
  established : ∀ x ∈ typed, ∃ t, d.environment.candidates x.symbol = [t] ∧ d.expose t = x.type
  withdrawn : ∀ l ∈ groupSymbols home decls group, d.environment.candidates l = []
  others : ∀ l, l ∉ earlier.flatMap (groupSymbols home decls) → l ∉ groupSymbols home decls group →
    SameSymbol c d l

/-- **Groups in a row that come to one that fails.** -/
theorem checkGroups_aftermath {home : String} {decls : List Decl} {earlier : List (List Nat)} {group : List Nat}
    {typed : List (Nat × TypedDecl)} {c d between : Context} {e : Diagnostic} (hc : Calm c)
    (hnodup : ((earlier ++ [group]).flatMap (groupSymbols home decls)).Nodup)
    (hearlier : checkGroups home decls earlier c = (.ok typed, between))
    (hgroup : checkGroup home (groupDecls decls group) between = (.error e, d)) :
    Aftermath home decls earlier group (typed.map Prod.snd) c d := by
  rw [flatMap_append, flatMap_singleton, nodup_append] at hnodup
  obtain ⟨hearlierNodup, hgroupNodup, hdisjoint⟩ := hnodup
  obtain ⟨hbetween, hisolates⟩ := checkGroups_isolates hc hearlier
  obtain ⟨hsymbols, htyped⟩ := checkGroups_ok hc hearlierNodup hearlier
  have hfailed := checkGroup_isolates hbetween.settled home (groupDecls decls group)
  rw [hgroup] at hfailed
  have hdeclared : (typed.map Prod.snd).map TypedDecl.symbol = earlier.flatMap (groupSymbols home decls) := by
    rw [map_map]
    exact hsymbols
  refine ⟨hdeclared, fun x hx => ?_, checkGroup_error hbetween.settled hgroupNodup hgroup,
    fun l hl hl' => (hisolates.same hc.settled hl).trans (hfailed.same hbetween.settled hl')⟩
  -- what was declared before the group is none of its own
  obtain ⟨y, hy, rfl⟩ := mem_map.mp hx
  have hmem : y.2.symbol ∈ earlier.flatMap (groupSymbols home decls) := hsymbols ▸ mem_map_of_mem hy
  have hother : y.2.symbol ∉ groupSymbols home decls group := fun h => hdisjoint _ hmem _ h rfl
  obtain ⟨t, hcandidates, htype⟩ := htyped y hy
  obtain ⟨hsame, hexpose⟩ := hfailed.same hbetween.settled hother
  exact ⟨t, hsame.trans hcandidates, (hexpose t (hcandidates ▸ mem_cons_self)).trans htype⟩

/-- The operators are not among the symbols of a module that was read. -/
theorem operator_not_mem {p : Program} (hp : (Input.program p).Parsed) {home : String} {tracing : Bool}
    {l : Locator} (hl : (Context.new home tracing).environment.isDefined l = true) (group : List Nat) :
    l ∉ groupSymbols p.home p.decls group := by
  intro hmem
  obtain ⟨x, hx, rfl⟩ := mem_map.mp hmem
  obtain ⟨source, home, text, hread⟩ := hp
  have hname := Grammar.isName_of_parseProgram hread x (mem_groupDecls hx)
  rw [show x.name.name = (declared p.home x).name from rfl, isName_operator hl] at hname
  cases hname

/-- **What a failed check leaves behind.** Let a module that was read be checked in a context that a session
    reaches, and let it fail though its names differ. Then it fails with one of its groups. Each symbol of the
    groups before that has one candidate, of the type just found for it; those of the group have none; and all
    others, such as the operators and those of the groups still to come, are the same as before. An expression
    that fails leaves all symbols the same. -/
theorem failed_check_leaves {c : Context} (hc : Reached c) :
    (∀ (p : Program) (e : Diagnostic) (d : Context), (Input.program p).Parsed →
      (p.decls.map fun x => x.name.name).Nodup → checkProgram p c = (.error e, d) →
      ∃ earlier group later typed between, (dependencies p.decls).groups = earlier ++ group :: later ∧
        checkGroups p.home p.decls earlier (c.addModule p.home) = (.ok typed, between) ∧
        checkGroup p.home (groupDecls p.decls group) between = (.error e, d) ∧
        Aftermath p.home p.decls earlier group (typed.map Prod.snd) c d ∧
        (∀ l ∈ later.flatMap (groupSymbols p.home p.decls), SameSymbol c d l) ∧
        ∀ home tracing l, (Context.new home tracing).environment.isDefined l = true → SameSymbol c d l) ∧
    ∀ (x : Expr) (e : Diagnostic) (d : Context), checkExpr x c = (.error e, d) → ∀ l, SameSymbol c d l := by
  refine ⟨fun p e d hp hnames hfails => ?_, fun x e d hfails l => checkExpr_error hc.calm.settled hfails l⟩
  obtain ⟨earlier, group, later, typed, between, hgroups, hearlier, hgroup⟩ :=
    checkGroups_error (checkProgram_error hnames hfails)
  have hnodup := groupSymbols_nodup p.home hnames
  -- no symbol of the groups up to the one that fails is in a group behind it
  rw [hgroups, List.append_cons, List.flatMap_append, List.nodup_append] at hnodup
  obtain ⟨hdone, -, hdisjoint⟩ := hnodup
  have hload := load_same (.program p) c
  have haftermath : Aftermath p.home p.decls earlier group (typed.map Prod.snd) c d := by
    obtain ⟨hdeclared, hestablished, hwithdrawn, hothers⟩ :=
      checkGroups_aftermath (hc.calm.load (.program p)) hdone hearlier hgroup
    exact ⟨hdeclared, hestablished, hwithdrawn, fun l hl hl' => (hload l).trans (hothers l hl hl')⟩
  refine ⟨earlier, group, later, typed, between, hgroups, hearlier, hgroup, haftermath, fun l hl => ?_,
    fun home tracing l hl => ?_⟩
  · have hnew : l ∉ (earlier ++ [group]).flatMap (groupSymbols p.home p.decls) :=
      fun hmem => hdisjoint _ hmem _ hl rfl
    rw [List.flatMap_append, List.flatMap_singleton, List.mem_append, not_or] at hnew
    exact haftermath.others l hnew.1 hnew.2
  · refine haftermath.others l (fun hmem => ?_) (operator_not_mem hp hl group)
    obtain ⟨g, -, hmem⟩ := List.mem_flatMap.mp hmem
    exact operator_not_mem hp hl g hmem

/-- A step that does not succeed fails. -/
theorem eq_error {α : Type} {r : Except Diagnostic α × Context} (h : r.1.isOk = false) : ∃ e, r = (.error e, r.2) := by
  obtain ⟨outcome, d⟩ := r
  cases outcome with
  | ok a => cases h
  | error e => exact ⟨e, rfl⟩

/-- After `g = 1`, `h = "a"` and the expression `7`, the module with `f = x -> x`, `g = f 1 2` and `h = g` is
    checked and fails with `g`: `f` is declared, `g` is gone, and `h` is the one there was. So is `it` after the
    expression `1 2`, which fails. -/
theorem failed_check_leaves_redeclared :
    let declaring := Task.check (.program ⟨"main", [
      ⟨⟨"g", ⟨0, 0, 1⟩⟩, .literal ⟨0, 4, 5⟩ (.integer 1), ⟨0, 0, 5⟩⟩,
      ⟨⟨"h", ⟨0, 6, 7⟩⟩, .literal ⟨0, 10, 13⟩ (.string "a"), ⟨0, 6, 13⟩⟩]⟩)
    let asking := Task.check (.expression (.literal ⟨1, 0, 1⟩ (.integer 7)))
    let p : Program := ⟨"main", [
      ⟨⟨"f", ⟨2, 0, 1⟩⟩, .lambda ⟨2, 4, 10⟩ ⟨"x", ⟨2, 4, 5⟩⟩ (.name ⟨2, 9, 10⟩ ⟨none, "x"⟩), ⟨2, 0, 10⟩⟩,
      ⟨⟨"g", ⟨2, 11, 12⟩⟩, .apply ⟨2, 15, 20⟩ (.apply ⟨2, 15, 18⟩ (.name ⟨2, 15, 16⟩ ⟨none, "f"⟩)
        (.literal ⟨2, 17, 18⟩ (.integer 1))) (.literal ⟨2, 19, 20⟩ (.integer 2)), ⟨2, 11, 20⟩⟩,
      ⟨⟨"h", ⟨2, 21, 22⟩⟩, .name ⟨2, 25, 26⟩ ⟨none, "g"⟩, ⟨2, 21, 26⟩⟩]⟩
    let x : Expr := .apply ⟨3, 0, 3⟩ (.literal ⟨3, 0, 1⟩ (.integer 1)) (.literal ⟨3, 2, 3⟩ (.integer 2))
    let c := asking.run (declaring.run (.new "main" false))
    let d := (checkProgram p c).2
    let locator (name : String) : Locator := .declaration "main" name
    (d.environment.candidates (locator "f")).length = 1 ∧ d.environment.candidates (locator "g") = [] ∧
      (c.environment.candidates (locator "h")).length = 1 ∧ (c.environment.candidates (locator "it")).length = 1 ∧
      (∃ e earlier group later typed between, (dependencies p.decls).groups = earlier ++ group :: later ∧
        checkGroups p.home p.decls earlier (c.addModule p.home) = (.ok typed, between) ∧
        checkGroup p.home (groupDecls p.decls group) between = (.error e, d) ∧
        Aftermath p.home p.decls earlier group (typed.map Prod.snd) c d ∧
        (∀ l ∈ later.flatMap (groupSymbols p.home p.decls), SameSymbol c d l) ∧
        ∀ home tracing l, (Context.new home tracing).environment.isDefined l = true → SameSymbol c d l) ∧
      ∀ l, SameSymbol c (checkExpr x c).2 l := by
  intro declaring asking p x c d locator
  have hdeclaring : declaring.Parsed := ⟨0, "main", "g = 1\nh = \"a\"", by decide +kernel⟩
  have hasking : asking.Parsed := ⟨1, "7", by decide +kernel⟩
  have hc : Reached c := .run (.run (.new "main" false) hdeclaring) hasking
  have hp : (Input.program p).Parsed :=
    ⟨2, "main", "f = x -> x\ng = f 1 2\nh = g", by decide +kernel⟩
  obtain ⟨e, hfails⟩ := eq_error (r := checkProgram p c) (by decide +kernel)
  obtain ⟨e', hfails'⟩ := eq_error (r := checkExpr x c) (by decide +kernel)
  obtain ⟨hprogram, hexpression⟩ := failed_check_leaves hc
  refine ⟨by decide +kernel, by decide +kernel, by decide +kernel, by decide +kernel, ?_, ?_⟩
  · exact ⟨e, hprogram p e d hp (by decide +kernel) hfails⟩
  · exact hexpression x e' _ hfails'

end Typing
end UnionTyping
