import UnionTyping.Proofs.Scanning

/-!
# `Proofs.ReadBack` — what is printed is read as it was

The text of an expression has parentheses around everything compound, so each part of it stands between tokens that
are known. Three predicates say what the grammar needs to know about the text at a place:
* **`Inert`**: no operator and no blank stands here, so neither a prefix operator nor one between operands is read;
* **`Apart`**: the atom in front is over here, and is no parameter of a function;
* **`Closes`**: the expression in front is over here, and can be extended neither by an operator nor by an argument.

With them every form of expression is read back from its text (`readBackWithin`), by induction on the expression; the
number of characters of the text bounds how deep the parser has to go. Declarations and modules follow
(`parseExpr_text`, `parseProgram_text`). Only the leaves have to be such as can be written, and in what was read they
are (`Derives.legible`), if texts and numbers with a point are read back from their own texts.
-/

namespace UnionTyping

open List

/-! ## Expressions without places -/

variable {e : Expr} {op : BinaryOp}

/-- A range that stands for none. -/
def Span.nowhere : Span := ⟨0, 0, 0⟩

/-- The name without its place. -/
def Ident.bare (x : Ident) : Ident := ⟨x.name, .nowhere⟩

namespace Expr

/-- The expression without the places of its parts. -/
def bare : Expr → Expr
  | .literal _ v => .literal .nowhere v
  | .name _ p => .name .nowhere p
  | .apply _ f a => .apply .nowhere f.bare a.bare
  | .binary _ op l r => .binary .nowhere op l.bare r.bare
  | .unary _ op x => .unary .nowhere op x.bare
  | .lambda _ x b => .lambda .nowhere x.bare b.bare
  | .conditional _ c a b => .conditional .nowhere c.bare a.bare b.bare
  | .binding _ x v b => .binding .nowhere x.bare v.bare b.bare

/-- The literals of an expression, from left to right. -/
def literals : Expr → List Literal
  | .literal _ v => [v]
  | .name _ _ => []
  | .apply _ f a => f.literals ++ a.literals
  | .binary _ _ l r => l.literals ++ r.literals
  | .unary _ _ x => x.literals
  | .lambda _ _ b => b.literals
  | .conditional _ c a b => c.literals ++ a.literals ++ b.literals
  | .binding _ _ v b => v.literals ++ b.literals

/-- **The expression can be read back from its text**, as far as its leaves are concerned. -/
def Legible : Expr → Prop
  | .literal _ v => Grammar.ReadsBack v
  | .name _ p => Grammar.IsPath p
  | .apply _ f a => f.Legible ∧ a.Legible
  | .binary _ _ l r => l.Legible ∧ r.Legible
  | .unary _ _ x => x.Legible
  | .lambda _ x b => Grammar.isName x.name = true ∧ b.Legible
  | .conditional _ c a b => c.Legible ∧ a.Legible ∧ b.Legible
  | .binding _ x v b => Grammar.isName x.name = true ∧ v.Legible ∧ b.Legible

theorem bare_withSpan (s : Span) (e : Expr) : (e.withSpan s).bare = e.bare := by
  cases e <;> rfl

theorem literals_withSpan (s : Span) (e : Expr) : (e.withSpan s).literals = e.literals := by
  cases e <;> rfl

theorem legible_withSpan (s : Span) (e : Expr) : (e.withSpan s).Legible = e.Legible := by
  cases e <;> rfl

/-- The parentheses around a compound expression make its text longer than those of its parts. -/
theorem length_text_child {x : Expr} (h : x ∈ e.children) : x.text.length + 2 ≤ e.text.length := by
  have hclose : ")".length = 1 := rfl
  have hopen : "(".length = 1 ∧ "(not ".length = 5 ∧ "(if ".length = 4 ∧ "(let ".length = 5 := ⟨rfl, rfl, rfl, rfl⟩
  cases e with
  | literal => cases h
  | name => cases h
  | unary s op y =>
    obtain rfl := mem_singleton.mp h
    cases op <;> simp only [text, String.length_append] <;> omega
  | _ =>
    simp only [children, mem_cons, not_mem_nil, or_false] at h
    rcases h with rfl | rfl | rfl <;> simp only [text, String.length_append] <;> omega

end Expr

/-- The declaration without its places. -/
def Decl.bare (d : Decl) : Decl := ⟨d.name.bare, d.body.bare, .nowhere⟩

/-- The module without the places in it. -/
def Program.bare (p : Program) : Program := ⟨p.home, p.decls.map Decl.bare⟩

/-- The literals of a module. -/
def Program.literals (p : Program) : List Literal :=
  p.decls.flatMap fun d => d.body.literals

namespace Grammar

open Parse

/-! ## Where no operator stands -/

variable {text w : String} {source : Nat} {expr : Nat → Parse Expr} {cs ds : List Char} {P : Expr → Prop}

/-- Blanks, and what operators that are not words start with. -/
def separators : List Char :=
  [' ', '\t', '=', '!', '<', '>', '+', '-', '*', '/', '%']

/-- **No operator stands here**, and no blank. -/
structure Inert (cs : List Char) : Prop where
  head : headIs (separators.contains ·) cs = false
  word : lead cs ∉ ["or", "and", "not"]

theorem headIs_append {p : Char → Bool} (h : headIs p cs = true) : headIs p (cs ++ ds) = true := by
  cases cs with
  | nil => cases h
  | cons c cs => exact h

/-- A text that starts with a character of a class without separators starts with none of them. -/
theorem headIs_separators {p : Char → Bool} (hp : separators.all (!p ·) = true) (h : headIs p cs = true) :
    headIs (separators.contains ·) cs = false := by
  cases cs with
  | nil => rfl
  | cons c cs =>
    have hc : p c = true := h
    refine Bool.eq_false_iff.mpr fun hmem => ?_
    have hnot := all_eq_true.mp hp c (contains_iff_mem.mp hmem)
    rw [hc] at hnot
    cases hnot

namespace Inert

theorem space (h : Inert cs) : headIs isSpace cs = false := by
  refine Bool.eq_false_iff.mpr fun hspace => ?_
  cases cs with
  | nil => cases hspace
  | cons c cs =>
    have hc : isSpace c = true := hspace
    have hhead : separators.contains c = false := h.head
    simp only [isSpace, Bool.or_eq_true, beq_iff_eq] at hc
    rcases hc with rfl | rfl <;> cases hhead

theorem exact_refuses (h : Inert cs) (htext : headIs (separators.contains ·) text.toList = true) :
    (exact text).Refuses cs := by
  refine Parse.exact_refuses ?_
  rintro ⟨rest, rfl⟩
  have hhead := h.head
  rw [headIs_append htext] at hhead
  cases hhead

theorem binaryOp_refuses (h : Inert cs) (op : BinaryOp) : (binaryOp op).Refuses cs := by
  have hword := h.word
  cases op with
  | or => exact keyword_refuses (by decide) fun e => hword (by rw [e]; decide)
  | and => exact keyword_refuses (by decide) fun e => hword (by rw [e]; decide)
  | _ => exact h.exact_refuses rfl

theorem unaryOp_refuses (h : Inert cs) (op : UnaryOp) : (unaryOp op).Refuses cs := by
  have hword := h.word
  cases op with
  | not => exact keyword_refuses (by decide) fun e => hword (by rw [e]; decide)
  | _ => exact h.exact_refuses rfl

/-- An operand that starts here is an atom. -/
theorem operand_takes (h : Inert cs) (hatom : (atom source expr).Takes P cs ds) (start : Nat) :
    (operand source expr start).Takes P cs ds :=
  .otherwise (.bind (h.unaryOp_refuses _)) <| .otherwise (.bind (h.unaryOp_refuses _)) <|
    .otherwise (.bind (h.unaryOp_refuses _)) hatom

theorem operand_refuses (h : Inert cs) (hatom : (atom source expr).Refuses cs) (start : Nat) :
    (operand source expr start).Refuses cs :=
  .orElse (.bind (h.unaryOp_refuses _)) <| .orElse (.bind (h.unaryOp_refuses _)) <|
    .orElse (.bind (h.unaryOp_refuses _)) hatom

/-- A word stands here that is no operator. -/
theorem of_lead (hw : isWord w = true) (hop : w ∉ ["or", "and", "not"]) (hcs : headIs isWordRest cs = false) :
    Inert (w.toList ++ cs) where
  head := headIs_separators rfl (isWordStart_append hw)
  word := by rwa [lead_append hw hcs]

theorem of_isName (hw : isName w = true) (hcs : headIs isWordRest cs = false) : Inert (w.toList ++ cs) := by
  refine of_lead (isWord_of_isName hw) (fun hop => ?_) hcs
  have hops : ∀ w ∈ ["or", "and", "not"], isName w = false := by decide
  rw [hops w hop] at hw
  cases hw

/-- A character stands here that is of no word and of no operator. -/
theorem of_char {c : Char} (hhead : separators.contains c = false) (hword : isWordRest c = false) (cs : List Char) :
    Inert (c :: cs) where
  head := hhead
  word := by
    have hstop : headIs isWordRest (c :: cs) = false := hword
    have hlead : lead (c :: cs) = "" := by rw [lead, takeWhile_stop hstop]
    rw [hlead]
    decide

end Inert

/-! ## Where an expression ends -/

/-- **The atom in front is over here**, and an arrow is not what comes next. -/
structure Apart (cs : List Char) : Prop where
  head : headIs goesOn cs = false
  arrow : ¬ "->".toList <+: cs.dropWhile isSpace

/-- **The expression in front is over here.** -/
inductive Closes : List Char → Prop
  | nothing : Closes []
  | parenthesis (cs : List Char) : Closes (')' :: cs)
  | lineFeed (cs : List Char) : Closes ('\n' :: cs)
  | keyword {w : String} (hw : w ∈ ["then", "else", "in"]) (cs : List Char) : Closes (' ' :: (w.toList ++ ' ' :: cs))

theorem Inert.apart (h : Inert cs) : Apart (' ' :: cs) where
  head := rfl
  arrow := by
    have hdrop : (' ' :: cs).dropWhile isSpace = cs := dropWhile_stop h.space
    rw [hdrop]
    rintro ⟨rest, rfl⟩
    cases h.head

theorem apart_operator (op : BinaryOp) (cs : List Char) : Apart (' ' :: (op.symbol.toList ++ ' ' :: cs)) := by
  constructor
  · rfl
  · cases op <;> simp [BinaryOp.symbol, isSpace]

theorem inert_keyword (hw : w ∈ ["then", "else", "in"]) (hcs : headIs isWordRest cs = false) :
    Inert (w.toList ++ cs) := by
  have hwords : ∀ w ∈ ["then", "else", "in"], isWord w = true ∧ w ∉ ["or", "and", "not"] := by decide
  exact .of_lead (hwords w hw).1 (hwords w hw).2 hcs

theorem Closes.apart (h : Closes cs) : Apart cs := by
  cases h with
  | nothing => exact ⟨rfl, by decide⟩
  | parenthesis cs => exact ⟨rfl, by simp [isSpace]⟩
  | lineFeed cs => exact ⟨rfl, by simp [isSpace]⟩
  | keyword hw cs => exact (inert_keyword hw rfl).apart

/-- Behind the blanks, too, there is no operator. -/
theorem Closes.blanks (h : Closes cs) : ∃ ds, blanks.Passes cs ds ∧ Inert ds := by
  cases h with
  | nothing => exact ⟨[], blanks_none rfl, rfl, by decide⟩
  | parenthesis cs => exact ⟨_, blanks_none rfl, .of_char rfl rfl cs⟩
  | lineFeed cs => exact ⟨_, blanks_none rfl, .of_char rfl rfl cs⟩
  | keyword hw cs => exact ⟨_, blanks_one (inert_keyword hw rfl).space, inert_keyword hw rfl⟩

theorem infixed_refuses (hblanks : blanks.Passes cs ds) (h : Inert ds) (start : Nat) (left : Expr) (op : BinaryOp) :
    (infixed source expr start left op).Refuses cs :=
  .after hblanks fun _ _ => .bind (h.binaryOp_refuses op)

/-! ## Where no atom starts -/

theorem lambda_refuses (h : isName (lead cs) = false) (start : Nat) : (lambda source expr start).Refuses cs :=
  .bind (ident_refuses source h)

theorem conditional_refuses (h : lead cs ≠ "if") (start : Nat) : (conditional source expr start).Refuses cs :=
  .bind (keyword_refuses (by decide) h)

theorem binding_refuses (h : lead cs ≠ "let") (start : Nat) : (binding source expr start).Refuses cs :=
  .bind (keyword_refuses (by decide) h)

theorem path_refuses (h : isName (lead cs) = false) : path.Refuses cs :=
  .bind (name_refuses h)

theorem parenthesized_refuses (h : headIs (· == '(') cs = false) (start : Nat) :
    (parenthesized source expr start).Refuses cs := by
  refine .bind (exact_refuses ?_)
  rintro ⟨rest, rfl⟩
  cases h

/-- No atom is read where the text starts with none. -/
theorem atom_refuses (hname : isName (lead cs) = false) (hword : lead cs ∉ ["if", "let", "True", "False"])
    (hhead : headIs (fun c => opensLiteral c || c == '(') cs = false) : (atom source expr).Refuses cs := by
  obtain ⟨hliteral, hparenthesis⟩ : headIs opensLiteral cs = false ∧ headIs (· == '(') cs = false := by
    cases cs with
    | nil => exact ⟨rfl, rfl⟩
    | cons c cs => exact Bool.or_eq_false_iff.mp hhead
  simp only [mem_cons, not_mem_nil, or_false, not_or] at hword
  obtain ⟨hif, hlet, htrue, hfalse⟩ := hword
  refine .after position_passes fun start _ => .orElse (lambda_refuses hname start) ?_
  refine .orElse (conditional_refuses hif start) (.orElse (binding_refuses hlet start) ?_)
  refine .orElse (.bind (literal_refuses hliteral htrue hfalse)) ?_
  exact .orElse (.bind (path_refuses hname)) (parenthesized_refuses hparenthesis start)

/-- The words that go on with an expression that has begun are no atoms. -/
theorem atom_refuses_keyword (hw : w ∈ ["then", "else", "in"]) (hcs : headIs isWordRest cs = false) :
    (atom source expr).Refuses (w.toList ++ cs) := by
  have hwords : ∀ w ∈ ["then", "else", "in"], isWord w = true ∧ isName w = false ∧
      w ∉ ["if", "let", "True", "False"] := by decide
  obtain ⟨hword, hname, hother⟩ := hwords w hw
  have hlead : lead (w.toList ++ cs) = w := lead_append hword hcs
  refine atom_refuses (by rw [hlead, hname]) (by rwa [hlead]) ?_
  simp only [mem_cons, not_mem_nil, or_false] at hw
  rcases hw with rfl | rfl | rfl <;> rfl

/-! ## Extending an expression -/

variable {depth : Nat}

theorem spanFrom_passes (start : Nat) : (spanFrom source start).Passes cs cs :=
  .after position_passes fun _ => .pure trivial

theorem binaryOp_takes (op : BinaryOp) (cs : List Char) :
    (binaryOp op).Passes (op.symbol.toList ++ ' ' :: cs) (' ' :: cs) := by
  unfold binaryOp
  split
  · exact keyword_takes op.symbol rfl
  · exact exact_takes op.symbol _

/-- An operator is taken for another one only if one is written as the beginning of the other. -/
theorem binaryOp_refuses {other : BinaryOp} (hshort : ¬ other.symbol.toList <+: op.symbol.toList ++ [' '])
    (hlong : ¬ op.symbol.toList ++ [' '] <+: other.symbol.toList) (cs : List Char) :
    (binaryOp other).Refuses (op.symbol.toList ++ ' ' :: cs) := by
  have hstarts : ¬ other.symbol.toList <+: op.symbol.toList ++ ' ' :: cs := by
    intro hstarts
    have htext : op.symbol.toList ++ [' '] <+: op.symbol.toList ++ ' ' :: cs := ⟨cs, by simp⟩
    exact (List.prefix_or_prefix_of_prefix hstarts htext).elim hshort hlong
  unfold binaryOp
  split
  · exact .bind (exact_refuses hstarts)
  · exact exact_refuses hstarts

/-- An operator is not taken for one that is tried before it. -/
theorem binaryOp_refuses_before {other : BinaryOp} (h : other ∈ binaryOps.takeWhile (· != op)) (cs : List Char) :
    (binaryOp other).Refuses (op.symbol.toList ++ ' ' :: cs) := by
  have hdistinct : ∀ op ∈ binaryOps, ∀ other ∈ binaryOps.takeWhile (· != op),
      ¬ other.symbol.toList <+: op.symbol.toList ++ [' '] ∧ ¬ op.symbol.toList ++ [' '] <+: other.symbol.toList := by
    decide
  obtain ⟨hshort, hlong⟩ := hdistinct op (by cases op <;> decide) other h
  exact binaryOp_refuses hshort hlong cs

theorem space_operator (op : BinaryOp) (cs : List Char) : headIs isSpace (op.symbol.toList ++ cs) = false := by
  cases op <;> rfl

/-- An expression is extended by an operator of at least the given level. -/
theorem extension_infixed {least : Nat} (hleast : least ≤ op.level) (hcs : headIs isSpace cs = false)
    (h : (expr (op.level + 1)).Takes P cs ds) (start : Nat) (left : Expr) :
    (extension source expr least start left).Takes (fun e => ∃ s r, e = .binary s op left r ∧ P r)
      (' ' :: (op.symbol.toList ++ ' ' :: cs)) ds := by
  have hlevel : decide (least ≤ op.level) = true := decide_eq_true hleast
  have hmem : op ∈ binaryOps.filter fun op => least ≤ op.level :=
    mem_filter.mpr ⟨by cases op <;> decide, hlevel⟩
  refine .orElse (.firstOf hmem (fun other hother => ?_) ?_)
  · have hother : other ∈ binaryOps.takeWhile (· != op) := mem_takeWhile_filter hlevel hother
    exact .after (blanks_one (space_operator op _)) fun _ _ => .bind (binaryOp_refuses_before hother _)
  · refine .after (blanks_one (space_operator op _)) fun _ => .after (binaryOp_takes op _) fun _ => ?_
    refine .after (blanks_one hcs) fun _ => .bind h fun r hr => ?_
    exact .after (spanFrom_passes start) fun s => .pure ⟨s, r, rfl, hr⟩

/-- An expression is extended by an argument. -/
theorem extension_applied (hcs : Inert cs) (h : (atom source expr).Takes P cs ds)
    (least start : Nat) (left : Expr) :
    (extension source expr least start left).Takes (fun e => ∃ s a, e = .apply s left a ∧ P a) (' ' :: cs) ds := by
  refine .otherwise (.firstOf fun p hp => ?_) ?_
  · obtain ⟨op, -, rfl⟩ := mem_map.mp hp
    exact infixed_refuses (blanks_one hcs.space) hcs start left op
  · refine .after (blanks1_one hcs.space) fun _ => .bind h fun a ha => ?_
    exact .after (spanFrom_passes start) fun s => .pure ⟨s, a, rfl, ha⟩

/-- **An expression that is over is not extended.** -/
theorem Closes.extension_refuses (h : Closes cs) (least start : Nat) (left : Expr) :
    (extension source expr least start left).Refuses cs := by
  obtain ⟨ds, hblanks, hinert⟩ := h.blanks
  refine .orElse (.firstOf fun p hp => ?_) ?_
  · obtain ⟨op, -, rfl⟩ := mem_map.mp hp
    exact infixed_refuses hblanks hinert start left op
  · cases h with
    | nothing => exact .bind (blanks1_refuses rfl)
    | parenthesis cs => exact .bind (blanks1_refuses rfl)
    | lineFeed cs => exact .bind (blanks1_refuses rfl)
    | keyword hw cs =>
      exact .after (blanks1_one (inert_keyword hw rfl).space) fun _ _ => .bind (atom_refuses_keyword hw rfl)

theorem Closes.extendWithin_takes (h : Closes cs) (least start limit : Nat) (left : Expr) :
    (extendWithin source expr least start limit left).Takes (· = left) cs cs := by
  cases limit with
  | zero => exact .pure rfl
  | succ limit => exact .otherwise (.bind (h.extension_refuses least start left)) (.pure rfl)

theorem Closes.extend_takes (h : Closes cs) (least start : Nat) (left : Expr) :
    (extend source expr least start left).Takes (· = left) cs cs :=
  fun offset => h.extendWithin_takes least start (cs.length + 1) left offset

/-- One extension, and the expression is over. -/
theorem extend_once {least start : Nat} {left : Expr} (hds : Closes ds)
    (h : (extension source expr least start left).Takes P cs ds) :
    (extend source expr least start left).Takes P cs ds := by
  have hwithin : (extendWithin source expr least start (cs.length + 1) left).Takes P cs ds := by
    refine .orElse (.bind h fun e he => (hds.extendWithin_takes least start cs.length e).mono ?_)
    rintro _ rfl
    exact he
  exact fun offset => hwithin offset

/-- An operand where the expression starts and is over behind it is the whole expression. -/
theorem exprWithin_operand (hds : Closes ds)
    (h : ∀ start, (operand source (exprWithin source depth) start).Takes P cs ds) (least : Nat) :
    (exprWithin source (depth + 1) least).Takes P cs ds := by
  refine .after position_passes fun start => .bind (h start) fun e he => ?_
  refine (hds.extend_takes least start e).mono ?_
  rintro _ rfl
  exact he

theorem exprWithin_atom (hcs : Inert cs) (hds : Closes ds)
    (h : (atom source (exprWithin source depth)).Takes P cs ds) (least : Nat) :
    (exprWithin source (depth + 1) least).Takes P cs ds :=
  exprWithin_operand hds (hcs.operand_takes h) least

/-! ## Atoms -/

theorem headIs_of_lead (h : lead cs ≠ "") : headIs isWordRest cs = true := by
  cases cs with
  | nil => exact absurd rfl h
  | cons c cs =>
    cases hc : isWordRest c with
    | true => exact hc
    | false => exact absurd (by simp [lead, hc]) h

/-- What a literal is read from starts neither with a name nor with any of these words, and not with an operator. -/
theorem lead_of_literal (h : ¬ literal.Refuses cs) :
    isName (lead cs) = false ∧ lead cs ∉ ["if", "let", "or", "and", "not"] ∧
      headIs (separators.contains ·) cs = false := by
  have hstart : headIs opensLiteral cs = true ∨ lead cs ∈ ["True", "False"] := by
    refine Decidable.byContradiction fun hnot => h ?_
    simp only [not_or, Bool.not_eq_true, mem_cons, not_mem_nil, or_false] at hnot
    exact literal_refuses hnot.1 hnot.2.1 hnot.2.2
  rcases hstart with hhead | hlead
  · have hword := isWord_lead (isWordStart_of_opensLiteral hhead)
    refine ⟨isName_eq_false hword, fun hmem => ?_, headIs_separators rfl hhead⟩
    have hwords : ∀ w ∈ ["if", "let", "or", "and", "not"], isWord w = true := by decide
    rw [hwords _ hmem] at hword
    cases hword
  · have hwords : ∀ w ∈ ["True", "False"], isName w = false ∧ w ∉ ["if", "let", "or", "and", "not"] ∧ w ≠ "" := by
      decide
    obtain ⟨hname, hword, hne⟩ := hwords _ hlead
    exact ⟨hname, hword, headIs_separators rfl (headIs_of_lead hne)⟩

theorem inert_literal {v : Literal} (hv : literal.run text = .ok v) (hcs : headIs goesOn cs = false) :
    Inert (text.toList ++ cs) := by
  obtain ⟨-, hword, hhead⟩ := lead_of_literal (literal_takes hv hcs).not_refuses
  exact ⟨hhead, fun hop => hword (mem_cons_of_mem _ (mem_cons_of_mem _ hop))⟩

theorem inert_name {p : Path} (hp : IsPath p) (hcs : headIs goesOn cs = false) : Inert (p.text.toList ++ cs) := by
  obtain ⟨first, rest, rfl, hfirst, -⟩ := hp
  rw [toList_text_pathOf, append_assoc]
  exact .of_isName hfirst (pointed_stops rest (isWordRest_of_goesOn hcs))

theorem atom_literal {v : Literal} (s : Span) (hv : literal.run text = .ok v) (h : Apart cs) :
    (atom source expr).Takes (fun e => e.bare = (Expr.literal s v).bare) (text.toList ++ cs) cs := by
  have htakes := literal_takes hv h.head
  obtain ⟨hname, hword, -⟩ := lead_of_literal htakes.not_refuses
  simp only [mem_cons, not_mem_nil, or_false, not_or] at hword
  refine .after position_passes fun start => .otherwise (lambda_refuses hname start) ?_
  refine .otherwise (conditional_refuses hword.1 start) (.otherwise (binding_refuses hword.2.1 start) (.orElse ?_))
  refine .bind htakes ?_
  rintro _ rfl
  exact .after (spanFrom_passes start) fun _ => .pure rfl

/-- A path is not the parameter of a function. -/
theorem pointed_apart (rest : List String) (h : Apart cs) :
    ¬ "->".toList <+: (pointed rest ++ cs).dropWhile isSpace := by
  cases rest with
  | nil => exact h.arrow
  | cons w rest => simp [pointed, isSpace]

theorem atom_name {p : Path} (s : Span) (hp : IsPath p) (h : Apart cs) :
    (atom source expr).Takes (fun e => e.bare = (Expr.name s p).bare) (p.text.toList ++ cs) cs := by
  have htakes := path_takes hp h.head
  obtain ⟨first, rest, rfl, hfirst, hrest⟩ := hp
  rw [toList_text_pathOf, append_assoc] at htakes ⊢
  have hstops := pointed_stops rest (isWordRest_of_goesOn h.head)
  have hlambda : ∀ start, (lambda source expr start).Refuses (first.toList ++ (pointed rest ++ cs)) := fun start =>
    .after (ident_takes source hfirst hstops) fun _ _ => .after (blanks_all _) fun _ _ =>
      .bind (exact_refuses (pointed_apart rest h))
  have hne : ∀ {w}, isName w = false → lead (first.toList ++ (pointed rest ++ cs)) ≠ w := by
    rintro _ hw rfl
    rw [lead_append (isWord_of_isName hfirst) hstops, hfirst] at hw
    cases hw
  refine .after position_passes fun start => .otherwise (hlambda start) ?_
  refine .otherwise (conditional_refuses (hne (by decide)) start) ?_
  refine .otherwise (binding_refuses (hne (by decide)) start) ?_
  refine .otherwise (.bind (literal_refuses ?_ (hne (by decide)) (hne (by decide)))) (.orElse ?_)
  · refine Bool.eq_false_iff.mpr fun hopens => ?_
    have hstart : headIs isWordStart (first.toList ++ (pointed rest ++ cs)) = true :=
      isWordStart_append (isWord_of_isName hfirst)
    rw [isWordStart_of_opensLiteral hopens] at hstart
    cases hstart
  · refine .bind htakes ?_
    rintro _ rfl
    exact .after (spanFrom_passes start) fun _ => .pure rfl

theorem atom_parenthesized (hcs : headIs isSpace cs = false)
    (h : (expr 0).Takes (fun e' => e'.bare = e.bare) cs (')' :: ds)) :
    (atom source expr).Takes (fun e' => e'.bare = e.bare) ('(' :: cs) ds := by
  have hlead : lead ('(' :: cs) = "" := rfl
  refine .after position_passes fun start => .otherwise (lambda_refuses rfl start) ?_
  refine .otherwise (conditional_refuses (by rw [hlead]; decide) start) ?_
  refine .otherwise (binding_refuses (by rw [hlead]; decide) start) ?_
  refine .otherwise (.bind (literal_refuses rfl (by rw [hlead]; decide) (by rw [hlead]; decide))) ?_
  refine .otherwise (.bind (path_refuses rfl)) ?_
  refine .after (exact_takes "(" cs) fun _ => .after (blanks_none hcs) fun _ => .bind h fun e' he' => ?_
  refine .after (blanks_none rfl) fun _ => .after (exact_takes ")" ds) fun _ => ?_
  exact .after (spanFrom_passes start) fun s => .pure ((Expr.bare_withSpan s e').trans he')

/-! ## Forms of expressions -/

/-- **The expression is read back from its text**, as an atom and by going at most `depth` expressions deep. -/
structure ReadBackWithin (source depth : Nat) (e : Expr) : Prop where
  starts : ∀ {cs}, headIs goesOn cs = false → Inert (e.text.toList ++ cs)
  reads : ∀ {cs}, Apart cs →
    (atom source (exprWithin source depth)).Takes (fun e' => e'.bare = e.bare) (e.text.toList ++ cs) cs

section
variable {a b : Expr}

theorem ReadBackWithin.whole (h : ReadBackWithin source depth e) (hcs : Closes cs) (least : Nat) :
    (exprWithin source (depth + 1) least).Takes (fun e' => e'.bare = e.bare) (e.text.toList ++ cs) cs :=
  exprWithin_atom (h.starts hcs.apart.head) hcs (h.reads hcs.apart) least

theorem apply_takes {f : Expr} (s : Span) (hf : ReadBackWithin source depth f) (ha : ReadBackWithin source depth a) :
    (exprWithin source (depth + 1) 0).Takes (fun e => e.bare = (Expr.apply s f a).bare)
      (f.text.toList ++ ' ' :: (a.text.toList ++ ')' :: cs)) (')' :: cs) := by
  have hargument : Inert (a.text.toList ++ ')' :: cs) := ha.starts rfl
  refine .after position_passes fun start => ?_
  refine .bind ((hf.starts rfl).operand_takes (hf.reads hargument.apart) start) fun f' hf' => ?_
  have happlied := extension_applied hargument (ha.reads (Closes.parenthesis cs).apart) 0 start f'
  refine extend_once (.parenthesis cs) (happlied.mono ?_)
  rintro _ ⟨_, a', rfl, ha'⟩
  rw [Expr.bare, Expr.bare, hf', ha']

theorem binary_takes {l r : Expr} (s : Span) (op : BinaryOp) (hl : ReadBackWithin source (depth + 1) l)
    (hr : ReadBackWithin source depth r) :
    (exprWithin source (depth + 2) 0).Takes (fun e => e.bare = (Expr.binary s op l r).bare)
      (l.text.toList ++ ' ' :: (op.symbol.toList ++ ' ' :: (r.text.toList ++ ')' :: cs))) (')' :: cs) := by
  refine .after position_passes fun start => ?_
  refine .bind ((hl.starts rfl).operand_takes (hl.reads (apart_operator op _)) start) fun l' hl' => ?_
  have hright := hr.whole (.parenthesis cs) (op.level + 1)
  have hstarts : Inert (r.text.toList ++ ')' :: cs) := hr.starts rfl
  refine extend_once (.parenthesis cs) ((extension_infixed (Nat.zero_le _) hstarts.space hright start l').mono ?_)
  rintro _ ⟨_, r', rfl, hr'⟩
  rw [Expr.bare, Expr.bare, hl', hr']

/-- A prefix operator as it stands in front of its operand. -/
def unarySpelling : UnaryOp → List Char
  | .not => "not ".toList
  | op => op.symbol.toList

theorem unaryOp_takes (op : UnaryOp) (hcs : headIs isSpace cs = false) :
    ∃ ds, (unaryOp op).Passes (unarySpelling op ++ cs) ds ∧ blanks.Passes ds cs := by
  cases op with
  | neg => exact ⟨cs, exact_takes "-" cs, blanks_none hcs⟩
  | plus => exact ⟨cs, exact_takes "+" cs, blanks_none hcs⟩
  | not => exact ⟨' ' :: cs, keyword_takes "not" rfl, blanks_one hcs⟩

/-- A prefix operator is not taken for one that is tried before it. -/
theorem operand_prefixed {op : UnaryOp} {start : Nat}
    (h : (prefixed source expr start op).Takes P (unarySpelling op ++ cs) ds) :
    (operand source expr start).Takes P (unarySpelling op ++ cs) ds := by
  cases op with
  | neg => exact .orElse h
  | plus => exact .otherwise (.bind (exact_refuses (by simp [unarySpelling, UnaryOp.symbol]))) (.orElse h)
  | not =>
    have hsigns : ∀ op ∈ ["-", "+"], (exact op).Refuses (unarySpelling .not ++ cs) := by
      intro op hop
      refine exact_refuses ?_
      simp only [mem_cons, not_mem_nil, or_false] at hop
      rcases hop with rfl | rfl <;> simp [unarySpelling]
    exact .otherwise (.bind (hsigns "-" (by decide))) (.otherwise (.bind (hsigns "+" (by decide))) (.orElse h))

theorem unary_takes (s : Span) (op : UnaryOp) (he : ReadBackWithin source depth e) :
    (exprWithin source (depth + 2) 0).Takes (fun e' => e'.bare = (Expr.unary s op e).bare)
      (unarySpelling op ++ (e.text.toList ++ ')' :: cs)) (')' :: cs) := by
  have hclose := Closes.parenthesis cs
  obtain ⟨ds, hop, hblanks⟩ := unaryOp_takes op (he.starts hclose.apart.head).space
  refine exprWithin_operand hclose (fun start => operand_prefixed ?_) 0
  refine .after hop fun _ => .after hblanks fun _ => .bind (he.whole hclose _) fun e' he' => ?_
  refine .after (spanFrom_passes start) fun _ => .pure ?_
  rw [Expr.bare, Expr.bare, he']

theorem lambda_takes (s : Span) {x : Ident} (hx : isName x.name = true) (hb : ReadBackWithin source depth b) :
    (exprWithin source (depth + 2) 0).Takes (fun e => e.bare = (Expr.lambda s x b).bare)
      (x.name.toList ++ ' ' :: ("->".toList ++ ' ' :: (b.text.toList ++ ')' :: cs))) (')' :: cs) := by
  refine exprWithin_atom (.of_isName hx rfl) (.parenthesis cs) ?_ 0
  refine .after position_passes fun start => .orElse ?_
  refine .bind (ident_takes source hx rfl) fun x' hx' => .after (blanks_one rfl) fun _ => ?_
  refine .after (exact_takes "->" _) fun _ => .after (blanks_one (hb.starts rfl).space) fun _ => ?_
  refine .bind (hb.whole (.parenthesis cs) 0) fun b' hb' => .after (spanFrom_passes start) fun _ => .pure ?_
  rw [Expr.bare, Expr.bare, hb', Ident.bare, Ident.bare, hx']

/-- A word that goes on with an expression, between blanks. -/
theorem keyword_gap {α : Type} {P : α → Prop} {k : Parse α} (hw : w ∈ ["then", "else", "in"])
    (hcs : headIs isSpace cs = false) (h : k.Takes P cs ds) :
    (do blanks; keyword w; blanks; k : Parse α).Takes P (' ' :: (w.toList ++ ' ' :: cs)) ds :=
  .after (blanks_one (inert_keyword hw rfl).space) fun _ => .after (keyword_takes w rfl) fun _ =>
    .after (blanks_one hcs) fun _ => h

theorem conditional_takes (s : Span) (he : ReadBackWithin source depth e) (ha : ReadBackWithin source depth a)
    (hb : ReadBackWithin source depth b) :
    (exprWithin source (depth + 2) 0).Takes (fun e' => e'.bare = (Expr.conditional s e a b).bare)
      ("if".toList ++ ' ' :: (e.text.toList ++ ' ' :: ("then".toList ++ ' ' :: (a.text.toList ++
        ' ' :: ("else".toList ++ ' ' :: (b.text.toList ++ ')' :: cs)))))) (')' :: cs) := by
  refine exprWithin_atom (.of_lead (by decide) (by decide) rfl) (.parenthesis cs) ?_ 0
  refine .after position_passes fun start => ?_
  refine .otherwise (lambda_refuses (by rw [lead_append (by decide) rfl]; decide) start) (.orElse ?_)
  refine .after (keyword_takes "if" rfl) fun _ => .after (blanks_one (he.starts rfl).space) fun _ => ?_
  refine .bind (he.whole (.keyword (by decide) _) 0) fun e' he' => keyword_gap (by decide) (ha.starts rfl).space ?_
  refine .bind (ha.whole (.keyword (by decide) _) 0) fun a' ha' => keyword_gap (by decide) (hb.starts rfl).space ?_
  refine .bind (hb.whole (.parenthesis cs) 0) fun b' hb' => .after (spanFrom_passes start) fun _ => .pure ?_
  rw [Expr.bare, Expr.bare, he', ha', hb']

theorem binding_takes {v : Expr} (s : Span) {x : Ident} (hx : isName x.name = true)
    (hv : ReadBackWithin source depth v) (hb : ReadBackWithin source depth b) :
    (exprWithin source (depth + 2) 0).Takes (fun e => e.bare = (Expr.binding s x v b).bare)
      ("let".toList ++ ' ' :: (x.name.toList ++ ' ' :: ("=".toList ++ ' ' :: (v.text.toList ++
        ' ' :: ("in".toList ++ ' ' :: (b.text.toList ++ ')' :: cs)))))) (')' :: cs) := by
  have hlead : ∀ cs, lead ("let".toList ++ ' ' :: cs) = "let" := fun cs => lead_append (by decide) rfl
  refine exprWithin_atom (.of_lead (by decide) (by decide) rfl) (.parenthesis cs) ?_ 0
  refine .after position_passes fun start => ?_
  refine .otherwise (lambda_refuses (by rw [hlead]; decide) start) ?_
  refine .otherwise (conditional_refuses (by rw [hlead]; decide) start) (.orElse ?_)
  refine .after (keyword_takes "let" rfl) fun _ => .after (blanks_one (Inert.of_isName hx rfl).space) fun _ => ?_
  refine .bind (ident_takes source hx rfl) fun x' hx' => .after (blanks_one rfl) fun _ => ?_
  refine .after (exact_takes "=" _) fun _ => .after (blanks_one (hv.starts rfl).space) fun _ => ?_
  refine .bind (hv.whole (.keyword (by decide) _) 0) fun v' hv' => keyword_gap (by decide) (hb.starts rfl).space ?_
  refine .bind (hb.whole (.parenthesis cs) 0) fun b' hb' => .after (spanFrom_passes start) fun _ => .pure ?_
  rw [Expr.bare, Expr.bare, hv', hb', Ident.bare, Ident.bare, hx']

end

/-! ## Expressions -/

/-- A compound expression is read back if what stands between its parentheses is. -/
theorem readBackWithin_compound
    (h : ∀ cs, ∃ ds, e.text.toList ++ cs = '(' :: ds ∧ headIs isSpace ds = false ∧
      (exprWithin source depth 0).Takes (fun e' => e'.bare = e.bare) ds (')' :: cs)) :
    ReadBackWithin source depth e := by
  constructor
  · intro cs hcs
    obtain ⟨ds, htext, -⟩ := h cs
    exact htext ▸ .of_char rfl rfl ds
  · intro cs hcs
    obtain ⟨ds, htext, hspace, htakes⟩ := h cs
    exact htext ▸ atom_parenthesized hspace htakes

/-- Parentheses and what is inside them take a level of nesting each, and the text is longer by both parentheses. -/
theorem nesting_left {x : Expr} {xs : List Expr} (hdepth : e.text.length ≤ depth) (hparts : e.children = x :: xs) :
    ∃ d, depth = d + 2 ∧ ∀ y ∈ x :: xs, y.text.length ≤ d := by
  have hchildren : ∀ y ∈ x :: xs, y.text.length + 2 ≤ depth := fun y hy =>
    Nat.le_trans (Expr.length_text_child (hparts ▸ hy)) hdepth
  have htwo := hchildren x mem_cons_self
  refine ⟨depth - 2, by omega, fun y hy => ?_⟩
  have hle := hchildren y hy
  omega

/-- **Every legible expression is read back from its text**, if the parser may go as deep as the text is long. -/
theorem readBackWithin (he : e.Legible) (hdepth : e.text.length ≤ depth) : ReadBackWithin source depth e := by
  induction e generalizing depth with
  | literal s v => exact ⟨inert_literal he, atom_literal s he⟩
  | name s p => exact ⟨inert_name he, atom_name s he⟩
  | apply s f a ihf iha =>
    obtain ⟨d, rfl, hfits⟩ := nesting_left hdepth rfl
    have hf := ihf he.1 (Nat.le_succ_of_le (hfits f (by simp)))
    have ha := iha he.2 (Nat.le_succ_of_le (hfits a (by simp)))
    exact readBackWithin_compound fun cs => ⟨_, by simp [Expr.text], (hf.starts rfl).space, apply_takes s hf ha⟩
  | binary s op l r ihl ihr =>
    obtain ⟨d, rfl, hfits⟩ := nesting_left hdepth rfl
    have hl := ihl he.1 (Nat.le_succ_of_le (hfits l (by simp)))
    have hr := ihr he.2 (hfits r (by simp))
    exact readBackWithin_compound fun cs => ⟨_, by simp [Expr.text], (hl.starts rfl).space, binary_takes s op hl hr⟩
  | unary s op x ih =>
    obtain ⟨d, rfl, hfits⟩ := nesting_left hdepth rfl
    have hx := ih he (hfits x (by simp))
    have htext : ∀ cs, (Expr.unary s op x).text.toList ++ cs =
        '(' :: (unarySpelling op ++ (x.text.toList ++ ')' :: cs)) := by
      intro cs
      cases op <;> simp [Expr.text, unarySpelling]
    exact readBackWithin_compound fun cs => ⟨_, htext cs, by cases op <;> rfl, unary_takes s op hx⟩
  | lambda s x b ih =>
    obtain ⟨d, rfl, hfits⟩ := nesting_left hdepth rfl
    have hb := ih he.2 (hfits b (by simp))
    exact readBackWithin_compound fun cs =>
      ⟨_, by simp [Expr.text], (Inert.of_isName he.1 rfl).space, lambda_takes s he.1 hb⟩
  | conditional s c a b ihc iha ihb =>
    obtain ⟨d, rfl, hfits⟩ := nesting_left hdepth rfl
    have hc := ihc he.1 (hfits c (by simp))
    have ha := iha he.2.1 (hfits a (by simp))
    have hb := ihb he.2.2 (hfits b (by simp))
    exact readBackWithin_compound fun cs => ⟨_, by simp [Expr.text], rfl, conditional_takes s hc ha hb⟩
  | binding s x v b ihv ihb =>
    obtain ⟨d, rfl, hfits⟩ := nesting_left hdepth rfl
    have hv := ihv he.2.1 (hfits v (by simp))
    have hb := ihb he.2.2 (hfits b (by simp))
    exact readBackWithin_compound fun cs => ⟨_, by simp [Expr.text], rfl, binding_takes s he.1 hv hb⟩

theorem inert_text (he : e.Legible) (hcs : headIs goesOn cs = false) : Inert (e.text.toList ++ cs) := by
  have hback : ReadBackWithin 0 e.text.length e := readBackWithin he (Nat.le_refl _)
  exact hback.starts hcs

theorem expr_takes (source : Nat) (he : e.Legible) (hcs : Closes cs) :
    (Grammar.expr source).Takes (fun e' => e'.bare = e.bare) (e.text.toList ++ cs) cs := by
  have hdepth : e.text.length ≤ (e.text.toList ++ cs).length := by
    rw [length_append, String.length_toList]
    exact Nat.le_add_right _ _
  exact fun offset => (readBackWithin he hdepth).whole hcs 0 offset

theorem comment_refuses (h : headIs (· == '#') cs = false) : comment.Refuses cs :=
  .bind (char_refuses h)

theorem expression_takes (source : Nat) (he : e.Legible) :
    (expression source).Takes (fun e' => e'.bare = e.bare) (e.text.toList ++ []) [] := by
  refine .after (blanks_none (inert_text he rfl).space) fun _ => .bind (expr_takes source he .nothing) fun e' he' => ?_
  exact .after (blanks_none rfl) fun _ => .after (comment_refuses rfl).optional.passes fun _ => .pure he'

/-! ## Modules -/

/-- The declaration can be read back from its text, as far as its names and literals are concerned. -/
def LegibleDecl (d : Decl) : Prop :=
  isName d.name.name = true ∧ d.body.Legible

theorem toList_text_decl (d : Decl) (cs : List Char) :
    d.text.toList ++ cs = d.name.name.toList ++ ' ' :: ("=".toList ++ ' ' :: (d.body.text.toList ++ cs)) := by
  simp [Decl.text]

theorem decl_takes {d : Decl} (hd : LegibleDecl d) (hcs : Closes cs) :
    (decl source).Takes (fun d' => d'.bare = d.bare) (d.text.toList ++ cs) cs := by
  rw [toList_text_decl]
  refine .after position_passes fun start => .bind (ident_takes source hd.1 rfl) fun n hn => ?_
  refine .after (blanks_one rfl) fun _ => .after (exact_takes "=" _) fun _ => ?_
  refine .after (blanks_one (inert_text hd.2 hcs.apart.head).space) fun _ => ?_
  refine .bind (expr_takes source hd.2 hcs) fun b hb => .after (spanFrom_passes start) fun _ => .pure ?_
  rw [Decl.bare, Decl.bare, hb, Ident.bare, Ident.bare, hn]

/-- A line with a declaration on it. -/
theorem line_takes {d : Decl} (hd : LegibleDecl d) (cs : List Char) :
    (line source).Takes (fun o => ∃ d', o = some d' ∧ d'.bare = d.bare) (d.text.toList ++ '\n' :: cs) ('\n' :: cs) := by
  have hspace : headIs isSpace (d.text.toList ++ '\n' :: cs) = false := by
    rw [toList_text_decl]
    exact (Inert.of_isName hd.1 rfl).space
  refine .after (blanks_none hspace) fun _ => .bind (decl_takes hd (.lineFeed cs)).optional fun o ho => ?_
  exact .after (blanks_none rfl) fun _ => .after (comment_refuses rfl).optional.passes fun _ => .pure ho

/-- The line behind the last line feed. -/
theorem line_takes_nothing : (line source).Takes (· = none) [] [] := by
  have hdecl : (decl source).Refuses [] := .after position_passes fun _ _ => .bind (ident_refuses source rfl)
  refine .after (blanks_none rfl) fun _ => .bind hdecl.optional fun o ho => ?_
  exact .after (blanks_none rfl) fun _ => .after (comment_refuses rfl).optional.passes fun _ => .pure ho

theorem lineEnd_takes (cs : List Char) : lineEnd.Passes ('\n' :: cs) cs :=
  .otherwise (.quiet (exact_refuses (by simp))) (.after (char_takes rfl).passes fun _ => .pure trivial)

theorem lineEnd_refuses : lineEnd.Refuses [] :=
  .orElse (.quiet (exact_refuses (by simp))) (.bind (char_refuses rfl))

/-- The text of a module, line by line. -/
def writtenLines (ds : List Decl) : List Char :=
  ds.flatMap fun d => d.text.toList ++ ['\n']

theorem toList_text_program (p : Program) : p.text.toList = writtenLines p.decls := by
  simp [Program.text, writtenLines, String.toList_join, flatMap_map]

theorem writtenLines_cons (d : Decl) (ds : List Decl) :
    writtenLines (d :: ds) = d.text.toList ++ '\n' :: writtenLines ds := by
  simp [writtenLines]

/-- The lines behind the first one. -/
theorem further_lines_take {ds : List Decl} {limit : Nat} (hds : ∀ d ∈ ds, LegibleDecl d) (hlimit : ds.length < limit) :
    (manyWithin (do lineEnd; line source) limit).Takes
      (fun os => (os.filterMap id).map Decl.bare = ds.map Decl.bare) ('\n' :: writtenLines ds) [] := by
  induction ds generalizing limit with
  | nil =>
    obtain ⟨limit, rfl⟩ : ∃ n, limit = n + 1 := ⟨limit - 1, by omega⟩
    have hlast : (do lineEnd; line source : Parse (Option Decl)).Takes (· = none) ['\n'] [] :=
      .after (lineEnd_takes []) fun _ => line_takes_nothing
    refine (hlast.manyWithin (Refuses.manyWithin (.bind lineEnd_refuses) limit)).mono ?_
    rintro _ ⟨_, _, rfl, rfl, rfl⟩
    rfl
  | cons d ds ih =>
    obtain ⟨hd, hds⟩ := forall_mem_cons.mp hds
    obtain ⟨limit, rfl⟩ : ∃ n, limit = n + 1 := ⟨limit - 1, by omega⟩
    rw [writtenLines_cons]
    refine (Takes.manyWithin (.after (lineEnd_takes _) fun _ => line_takes hd _)
      (ih hds (Nat.lt_of_succ_lt_succ hlimit))).mono ?_
    rintro _ ⟨_, _, rfl, ⟨d', rfl, hd'⟩, hrest⟩
    exact cons_eq_cons.mpr ⟨hd', hrest⟩

/-- **The declarations of a module are read back from its text**, in order. -/
theorem lines_take (source : Nat) {ds : List Decl} (hds : ∀ d ∈ ds, LegibleDecl d) :
    (lines source).Takes (fun ds' => ds'.map Decl.bare = ds.map Decl.bare) (writtenLines ds) [] := by
  cases ds with
  | nil =>
    refine .bind line_takes_nothing fun o ho => ?_
    refine .bind (.many (Refuses.manyWithin (.bind lineEnd_refuses) _)) fun os hos => .pure ?_
    rw [ho, hos]
    rfl
  | cons d ds =>
    obtain ⟨hd, hds⟩ := forall_mem_cons.mp hds
    have hlimit : ds.length < ('\n' :: writtenLines ds).length + 1 := by
      have hlength : ds.length ≤ (writtenLines ds).length := length_le_flatMap (by simp) ds
      rw [length_cons]
      omega
    rw [writtenLines_cons]
    refine .bind (line_takes hd _) fun o ho => .bind (.many (further_lines_take hds hlimit)) fun os hos => .pure ?_
    obtain ⟨d', rfl, hd'⟩ := ho
    exact cons_eq_cons.mpr ⟨hd', hos⟩

/-! ## What was read is legible -/

/-- Every number with a point and every text among the literals is read back from its own text. For whole numbers
    and truth values there is nothing to assume. -/
def LiteralsReadBack (vs : List Literal) : Prop :=
  (∀ x, .double x ∈ vs → ReadsBack (.double x)) ∧ ∀ s, .string s ∈ vs → ReadsBack (.string s)

theorem LiteralsReadBack.of_forall {vs : List Literal} (h : ∀ v ∈ vs, ReadsBack v) : LiteralsReadBack vs :=
  ⟨fun _ hx => h _ hx, fun _ hs => h _ hs⟩

theorem LiteralsReadBack.mono {vs us : List Literal} (h : LiteralsReadBack vs) (hsub : ∀ v ∈ us, v ∈ vs) :
    LiteralsReadBack us :=
  ⟨fun x hx => h.1 x (hsub _ hx), fun s hs => h.2 s (hsub _ hs)⟩

/-- **An expression that was read is legible** if its literals are read back. -/
theorem Derives.legible {c d : Cursor} (h : Derives source c e d) (hliterals : LiteralsReadBack e.literals) :
    e.Legible := by
  induction h with
  | of_form _ h ih =>
    cases h with
    | literal hv =>
      refine readsBack_of_reads hv ?_ ?_
      · rintro x rfl
        exact hliterals.1 x mem_cons_self
      · rintro s rfl
        exact hliterals.2 s mem_cons_self
    | name hp => exact path_yields _ _ _ hp
    | lambda hx _ hb => exact ⟨ident_yields _ _ _ _ hx, ih hb hliterals⟩
    | conditional _ hp _ ha _ hb =>
      refine ⟨ih hp (hliterals.mono ?_), ih ha (hliterals.mono ?_), ih hb (hliterals.mono ?_)⟩ <;>
        simp +contextual [Expr.literals]
    | binding _ hx _ hv _ hb =>
      refine ⟨ident_yields _ _ _ _ hx, ih hv (hliterals.mono ?_), ih hb (hliterals.mono ?_)⟩ <;>
        simp +contextual [Expr.literals]
    | parenthesized _ _ he _ =>
      rw [Expr.literals_withSpan] at hliterals
      rw [Expr.legible_withSpan]
      exact ih he hliterals
    | unary _ hx =>
      have hread := ih hx
      exact hread hliterals
    | binary hl _ hr =>
      refine ⟨ih hl (hliterals.mono ?_), ih hr (hliterals.mono ?_)⟩ <;> simp +contextual [Expr.literals]
    | apply hf _ ha =>
      refine ⟨ih hf (hliterals.mono ?_), ih ha (hliterals.mono ?_)⟩ <;> simp +contextual [Expr.literals]

theorem legible_of_parseExpr (h : parseExpr source text = .ok e) (hliterals : LiteralsReadBack e.literals) :
    e.Legible := by
  obtain ⟨d, hread, -⟩ := run_reads h
  simp only [expression, bind_reads, pure_reads] at hread
  obtain ⟨_, c₁, -, e', c₂, he, _, _, -, _, _, -, rfl, -⟩ := hread
  exact (expr_derives he).legible hliterals

theorem legible_of_parseProgram {home : String} {p : Program} (h : parseProgram source home text = .ok p)
    (hliterals : LiteralsReadBack p.literals) : ∀ d ∈ p.decls, LegibleDecl d := by
  have hdecl : (decl source).Yields fun d => LiteralsReadBack d.body.literals → LegibleDecl d := by
    intro c d stop hread hbody
    obtain ⟨c₁, c₂, hname, -, hread, -⟩ := decl_reads hread
    exact ⟨ident_yields source _ _ _ hname, (expr_derives hread).legible hbody⟩
  refine fun d hd => parseProgram_yields hdecl h d hd (hliterals.mono fun v hv => ?_)
  exact mem_flatMap.mpr ⟨d, hd, hv⟩

end Grammar

open Grammar

theorem ok_of_toOption_map {ε α β : Type} {r : Except ε α} {f : α → β} {b : β} (h : r.toOption.map f = some b) :
    ∃ a, r = .ok a ∧ f a = b := by
  cases r with
  | error e => cases h
  | ok a => exact ⟨a, rfl, Option.some.inj h⟩

/-- **A legible expression is read back from its text**, places apart. -/
theorem parseExpr_text (source : Nat) (he : e.Legible) : (parseExpr source e.text).map Expr.bare = .ok e.bare := by
  have htakes := expression_takes source he
  rw [append_nil] at htakes
  obtain ⟨e', hrun, he'⟩ := htakes.run
  rw [parseExpr, hrun, Except.map, he']

/-- **A legible module is read back from its text**, places apart; what it is called does not stand in it. -/
theorem parseProgram_text (source : Nat) (home : String) {p : Program} (hp : ∀ d ∈ p.decls, LegibleDecl d) :
    (parseProgram source home p.text).map Program.bare = .ok { p.bare with home := home } := by
  have htakes := lines_take source hp
  rw [← toList_text_program] at htakes
  obtain ⟨ds, hrun, hds⟩ := htakes.run
  have hparse : parseProgram source home p.text = .ok ⟨home, ds⟩ := by
    unfold parseProgram
    split
    · rename_i ds' hrun'
      rw [hrun] at hrun'
      cases hrun'
      rfl
    · rename_i e hrun'
      rw [hrun] at hrun'
      cases hrun'
  rw [hparse, Except.map, Program.bare, hds, Program.bare]

/-- **What was read is read again from its text as the same tree**, places apart: every expression, and every module
    with the same declarations in the same order. The only condition is that numbers with a point and texts in it
    are read back from their own texts. -/
theorem printed_text_reads_back :
    (∀ (source : Nat) (text : String) (e : Expr), parseExpr source text = .ok e → LiteralsReadBack e.literals →
      ∀ other, (parseExpr other e.text).map Expr.bare = .ok e.bare) ∧
    (∀ (source : Nat) (home text : String) (p : Program), parseProgram source home text = .ok p →
      LiteralsReadBack p.literals →
      ∀ other name, (parseProgram other name p.text).map Program.bare = .ok { p.bare with home := name }) :=
  ⟨fun _ _ _ h hliterals other => parseExpr_text other (legible_of_parseExpr h hliterals),
    fun _ _ _ _ h hliterals other name => parseProgram_text other name (legible_of_parseProgram h hliterals)⟩

/-- With much that could be taken for something else: a name that starts like a keyword, a keyword in a path, operators
    that start like others, a function as a value, a quote in a text, and lines with blanks and comments. -/
theorem printed_text_reads_back_nested :
    let text := "let iffy = x -> f (f x) in if not a or 2.5 <= -n * 3 then m.if 1 (iffy \"\\\"\") else True"
    let written :=
      "(let iffy = (x -> (f (f x))) in (if ((not a) or (2.5 <= ((-n) * 3))) then ((m.if 1) (iffy \"\\\"\")) else True))"
    let lines := "# two\n\n one=1 #\r\ntwo = x -> one+x*2 == (3.0)"
    (∃ e, parseExpr 0 text = .ok e ∧ e.text = written ∧ LiteralsReadBack e.literals ∧
      (parseExpr 1 e.text).map Expr.bare = .ok e.bare) ∧
    (∃ p, parseProgram 0 "main" lines = .ok p ∧ p.text = "one = 1\ntwo = (x -> ((one + (x * 2)) == 3.0))\n" ∧
      LiteralsReadBack p.literals ∧
      (parseProgram 1 "copy" p.text).map Program.bare = .ok { p.bare with home := "copy" }) := by
  intro text written lines
  constructor
  · have hread : (parseExpr 0 text).toOption.map (fun e => (e.text, decide (∀ v ∈ e.literals, ReadsBack v))) =
        some (written, true) := by decide +kernel
    obtain ⟨e, hparse, he⟩ := ok_of_toOption_map hread
    obtain ⟨htext, hliterals⟩ := Prod.mk.inj he
    have hliterals := LiteralsReadBack.of_forall (of_decide_eq_true hliterals)
    exact ⟨e, hparse, htext, hliterals, printed_text_reads_back.1 0 text e hparse hliterals 1⟩
  · have hread : (parseProgram 0 "main" lines).toOption.map
        (fun p => (p.text, decide (∀ v ∈ p.literals, ReadsBack v))) =
          some ("one = 1\ntwo = (x -> ((one + (x * 2)) == 3.0))\n", true) := by decide +kernel
    obtain ⟨p, hparse, hp⟩ := ok_of_toOption_map hread
    obtain ⟨htext, hliterals⟩ := Prod.mk.inj hp
    have hliterals := LiteralsReadBack.of_forall (of_decide_eq_true hliterals)
    exact ⟨p, hparse, htext, hliterals, printed_text_reads_back.2 0 "main" lines p hparse hliterals 1 "copy"⟩

end UnionTyping
