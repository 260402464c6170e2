import UnionTyping.Proofs.LineByLine
import UnionTyping.Proofs.Lookahead
import UnionTyping.Session

/-!
# `Proofs.Dispatch` — no text is both a module and an expression

A line that is typed in is taken for a module first, and for an expression only if it is none. The order does not
matter. Up to the first character that is no blank both are read alike; from there on
* a module without a declaration in its first line goes on with a comment, with the end of the line, or not at all,
  and no expression starts so (`opens_of_line`);
* a module with a declaration there goes on with a name and an equals sign. An expression that starts with this name
  is over behind it (`exprAbove_name`), since nothing goes on with an expression at a single equals sign
  (`Sequel.refuses_equals`), and a text with an equals sign left is no expression.
-/

namespace UnionTyping
namespace Grammar

open Parse

/-! ## Declarations -/

variable {source : Nat} {cs ys : List Char} {c d : Cursor}

/-- **Nothing goes on with an expression at an equals sign**, unless it is the first one of two. -/
theorem Sequel.refuses_equals (hcs : cs.dropWhile isSpace = '=' :: ys) (hys : headIs (· == '=') ys = false)
    (s : Sequel) : (s.parse source).Refuses cs := by
  have hlead : lead ('=' :: ys) = "" := rfl
  cases s with
  | arrow =>
    refine .after (blanks_all cs) fun _ _ => .bind ?_
    rw [hcs]
    exact exact_refuses (by simp)
  | operator op =>
    refine .after (blanks_all cs) fun _ _ => .bind ?_
    rw [hcs]
    cases op with
    | or => exact keyword_refuses (by decide) (by rw [hlead]; decide)
    | and => exact keyword_refuses (by decide) (by rw [hlead]; decide)
    | eq =>
      refine exact_refuses ?_
      rintro ⟨rest, hrest⟩
      injection hrest with _ hrest
      subst hrest
      cases hys
    | _ => exact exact_refuses (by simp [BinaryOp.symbol])
  | argument =>
    refine argument_refuses ?_
    rw [hcs]
    exact atom_refuses rfl (by rw [hlead]; decide) rfl

/-- An expression that starts with a name in front of a single equals sign is this name. -/
theorem exprAbove_name {w : String} {e : Expr} (hw : isName w = true) (hc : c.rest = w.toList ++ cs)
    (hstop : headIs isWordRest cs = false) (hcs : cs.dropWhile isSpace = '=' :: ys)
    (hys : headIs (· == '=') ys = false) (h : (exprAbove source 0 c).result = some (e, d)) : d.rest = cs := by
  have hpoint : headIs goesOn cs = false := by
    cases cs with
    | nil => rfl
    | cons x xs =>
      have hx : isWordRest x = false := hstop
      have hdot : x ≠ '.' := by
        rintro rfl
        cases hcs
      simp [headIs, goesOn, hx, hdot]
  have hapart : Apart cs := ⟨hpoint, by rw [hcs]; simp⟩
  have hatom : (atom source (exprAbove source)).Passes ((pathOf w []).text.toList ++ cs) cs :=
    (atom_name .nowhere ⟨w, [], rfl, hw, by simp⟩ hapart).passes
  rw [toList_text_pathOf, pointed, List.flatMap_nil, List.append_nil, ← hc] at hatom
  have hinert : Inert c.rest := by
    rw [hc]
    exact .of_isName hw hstop
  obtain ⟨x, stop, hoperand, -⟩ := hinert.operand_takes hatom c.offset c.offset
  have hend : (extension source (exprAbove source) 0 c.offset x ⟨stop, cs⟩).result = none :=
    extension_eq_none.mpr fun s _ => Sequel.refuses_equals hcs hys s stop
  have hname := exprAbove_reads_iff.mpr ⟨⟨x, _, hoperand, .done⟩, hend⟩
  rw [h] at hname
  cases hname
  rfl

/-- Behind a name in front of a single equals sign nothing is left of an expression but what it is over with. -/
theorem decl_not_expression {x : Decl} {e : Expr} {other : Nat} {c₁ c₂ c₃ : Cursor} {u : Unit} {o : Option Unit}
    (hdecl : (decl source c).result = some (x, d)) (hexpr : (exprAbove other 0 c).result = some (e, c₁))
    (hblanks : (blanks c₁).result = some (u, c₂)) (hcomment : (Parse.optional comment c₂).result = some (o, c₃)) :
    c₃.rest ≠ [] := by
  simp only [decl, bind_reads, position_reads] at hdecl
  obtain ⟨_, _, ⟨rfl, rfl⟩, n, d₁, hn, _, d₂, h₂, _, d₃, h₃, _, d₄, h₄, b, d₅, hb, -⟩ := hdecl
  obtain ⟨hname, hrest, hstop⟩ := ident_reads hn
  have hequals : d₁.rest.dropWhile isSpace = '=' :: d₃.rest := by
    rw [← blanks_reads h₂, exact_reads h₃]
    rfl
  have hsingle : headIs (· == '=') d₃.rest = false := by
    have hopens := exprAbove_opens hb
    rw [blanks_reads h₄] at hopens
    cases hhead : d₃.rest with
    | nil => rfl
    | cons y ys =>
      refine beq_eq_false_iff_ne.mpr ?_
      rintro rfl
      rw [hhead] at hopens
      cases hopens
  have hover := exprAbove_name hname hrest hstop hequals hsingle hexpr
  rw [← hover, ← blanks_reads hblanks] at hequals
  have hnone : comment.Refuses c₂.rest := by
    rw [hequals]
    exact .bind (char_refuses rfl)
  rw [(hnone.optional.of_reads hcomment).2, hequals]
  exact List.cons_ne_nil _ _

/-! ## Lines without a declaration -/

/-- What follows the blanks of a line without a declaration does not start an expression. -/
theorem opens_of_line {u : Unit} {o : Option Unit} {c₁ : Cursor} {es : List Decl}
    (hspace : headIs isSpace c.rest = false) (hblanks : (blanks c).result = some (u, c₁))
    (hcomment : (Parse.optional comment c₁).result = some (o, d)) (hresumes : Resumes source d es) :
    headIs opens c.rest = false := by
  have hrest : c₁.rest = c.rest := by
    rw [blanks_reads hblanks, dropWhile_stop hspace]
  by_cases hhash : headIs (· == '#') c.rest = true
  · refine headIs_of_disjoint (fun x hx => ?_) hhash
    rw [beq_iff_eq.mp hx]
    rfl
  · have hnone : comment.Refuses c₁.rest := by
      rw [hrest]
      exact .bind (char_refuses (Bool.eq_false_iff.mpr hhash))
    have hrest : d.rest = c.rest := (hnone.optional.of_reads hcomment).2.trans hrest
    rcases hresumes with ⟨hnil, -⟩ | ⟨_, _, hend, -⟩
    · rw [← hrest, hnil]
      rfl
    · refine headIs_of_disjoint (p := isLineEnd) (fun x hx => ?_) ?_
      · rcases eq_of_isLineEnd hx with rfl | rfl <;> rfl
      · rw [← hrest]
        exact Bool.not_eq_false _ ▸ fun hhead => not_refuses hend (lineEnd_refuses_other hhead)

/-- **No text is read to its end both as a module and as an expression.** -/
theorem lines_not_expression {other : Nat} {ds : List Decl} {e : Expr} (hlines : (lines source).Finishes c ds)
    (hexpression : (expression other).Finishes c e) : False := by
  obtain ⟨stop, hexpression⟩ := hexpression
  simp only [expression, bind_reads, pure_reads, expr_eq] at hexpression
  obtain ⟨_, c₁, hblanks, e', c₂, hexpr, _, c₃, hblanks', _, c₄, hcomment', -, rfl⟩ := hexpression
  obtain ⟨o, d, hline⟩ := line_total source c
  obtain ⟨es, -, hresumes⟩ := (lines_finish_iff hline).mp hlines
  simp only [line, bind_reads, pure_reads] at hline
  obtain ⟨_, d₁, hd₁, o', d₂, hdecl, _, d₃, hd₃, _, d₄, hcomment, -, rfl⟩ := hline
  rw [hblanks] at hd₁
  cases hd₁
  have hspace : headIs isSpace c₁.rest = false := by
    rw [blanks_reads hblanks]
    exact headIs_dropWhile isSpace c.rest
  rcases orElse_reads.mp hdecl with h | ⟨-, h⟩
  · obtain ⟨x, d₅, hx, -⟩ := bind_reads.mp h
    exact decl_not_expression hx hexpr hblanks' hcomment' rfl
  · obtain ⟨-, rfl⟩ := pure_reads.mp h
    have hopens := opens_of_line hspace hd₃ hcomment hresumes
    rw [exprAbove_opens hexpr] at hopens
    cases hopens

end Grammar

open Grammar Grammar.Parse

theorem not_both_read {source other : Nat} {home text : String} {p : Program} {e : Expr}
    (hmodule : parseProgram source home text = .ok p) (hexpr : parseExpr other text = .ok e) : False := by
  obtain ⟨ds, hlines, -⟩ := parseProgram_ok_iff.mp hmodule
  exact lines_not_expression hlines (run_ok_iff.mp hexpr)

/-- An expression starts with neither nothing nor a colon. -/
theorem head_of_parseExpr {source : Nat} {cs : List Char} {e : Expr}
    (h : parseExpr source (String.ofList cs) = .ok e) : cs ≠ [] ∧ ∀ rest, cs ≠ ':' :: rest := by
  obtain ⟨stop, h⟩ := run_ok_iff.mp h
  simp only [expression, bind_reads, expr_eq] at h
  obtain ⟨_, c₁, hblanks, e', c₂, hexpr, -⟩ := h
  have hopens := exprAbove_opens hexpr
  rw [blanks_reads hblanks, Cursor.start, String.toList_ofList] at hopens
  constructor
  · rintro rfl
    cases hopens
  · rintro rest rfl
    cases hopens

/-- **A line is either a module or an expression**: no text is read as both, so a line that is an expression is never
    taken for declarations or for a module without any, but typed as the expression it is. -/
theorem line_read_one_way :
    (∀ source other home text p e, ¬ (parseProgram source home text = .ok p ∧ parseExpr other text = .ok e)) ∧
    ∀ (s : Session) (line name : String) (e : Expr),
      parseExpr (s.addSource ⟨name, Text.trim line⟩).1 (Text.trim line) = .ok e →
      s.evaluateLine line name =
        (s.addSource ⟨name, Text.trim line⟩).2.check (Typing.checkExpr e) fun s d => s.announce d := by
  refine ⟨fun source other home text p e h => not_both_read h.1 h.2, fun s line name e hexpr => ?_⟩
  obtain ⟨hne, hcolon⟩ := head_of_parseExpr hexpr
  unfold Session.evaluateLine
  split
  · exact absurd ‹_› hne
  · exact absurd ‹_› (hcolon _)
  · have htext : String.ofList (Text.trimChars line.toList) = Text.trim line := rfl
    rw [htext]
    unfold Session.evaluateText
    simp only []
    split
    · rename_i p hmodule
      exact (not_both_read hmodule hexpr).elim
    · split
      · rename_i e' hexpr'
        rw [hexpr] at hexpr'
        cases hexpr'
        rfl
      · rename_i hfails
        rw [hexpr] at hfails
        cases hfails

/-- A comparison starts like a declaration. -/
theorem comparison_read_one_way :
    let s := Session.new "main" false false
    let e := Expr.binary ⟨0, 0, 6⟩ .eq (.name ⟨0, 0, 1⟩ ⟨none, "x"⟩) (.literal ⟨0, 5, 6⟩ (.integer 1))
    parseExpr (s.addSource ⟨"input", Text.trim "\tx == 1 # x = 1\n"⟩).1 (Text.trim "\tx == 1 # x = 1\n") = .ok e ∧
    s.evaluateLine "\tx == 1 # x = 1\n" "input" =
      (s.addSource ⟨"input", Text.trim "\tx == 1 # x = 1\n"⟩).2.check (Typing.checkExpr e) fun s d => s.announce d := by
  have hread : parseExpr 0 (Text.trim "\tx == 1 # x = 1\n") =
      .ok (.binary ⟨0, 0, 6⟩ .eq (.name ⟨0, 0, 1⟩ ⟨none, "x"⟩) (.literal ⟨0, 5, 6⟩ (.integer 1))) := by
    decide +kernel
  exact ⟨hread, line_read_one_way.2 _ _ _ _ hread⟩

end UnionTyping
