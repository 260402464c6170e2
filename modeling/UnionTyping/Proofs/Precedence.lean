import UnionTyping.Proofs.ReadBack

/-!
# `Proofs.Precedence` — which tree a row of operators and operands is read as

Without parentheses the tree of an expression is a matter of precedence. The tree is *arranged* (`Expr.Arranged`) if no
operator has a looser one below it, nor on its right one that binds as tightly, and if prefix operators stand in front
of literals and names in juxtaposition. At most one arranged tree has given pieces (`Expr.Arranged.bare_eq`): where two
trees of the same row are split at different operators, each operator would have to bind tighter than the other.

The parser reads it by climbing. Asked for operators of at least some level, it reads an operand and then goes on as
long as the next operator reaches the level; the right operand of an operator is read with the level above its own, so
it stops where the operator binds no tighter. `Climbs` says so of a parser of any depth. The step from one depth to the
next is `extendWithin_links` for the operators, by induction on how many of them are left, and
`extendWithin_arguments` for the juxtaposition in front of them. What follows an operand is never mistaken: an operator
is no atom (`atom_refuses_operator`), nor is it taken for one of another level (`binaryOp_refuses_level`).
-/

namespace UnionTyping

open List

/-! ## Trees and their pieces -/

variable {op : BinaryOp} {e : Expr}

/-- The operators by how tightly they bind, the loosest first. -/
def BinaryOp.tiers : List (List BinaryOp) :=
  [[.or], [.and], [.eq, .ne], [.le, .ge, .lt, .gt], [.add, .sub], [.mul, .div, .rem]]

/-- How tightly an operator binds. -/
def BinaryOp.tier (op : BinaryOp) : Nat :=
  tiers.findIdx (·.contains op)

theorem BinaryOp.level_eq (op : BinaryOp) : op.level = op.tier + 1 := by
  cases op <;> rfl

namespace Expr

/-- The pieces that a row of operators and operands is made of. -/
inductive Piece where
  | unary (op : UnaryOp)
  | binary (op : BinaryOp)
  | leaf (e : Expr)

/-- **The pieces of an expression from left to right**: what is not made by an operator or by juxtaposition is one
    piece. -/
def pieces : Expr → List Piece
  | .apply _ f a => f.pieces ++ a.pieces
  | .binary _ op l r => l.pieces ++ .binary op :: r.pieces
  | .unary _ op x => .unary op :: x.pieces
  | e => [.leaf e.bare]

/-- A literal or a name. -/
def IsLeaf : Expr → Prop
  | .literal _ _ => True
  | .name _ _ => True
  | _ => False

/-- Literals and names in juxtaposition, associated to the left. -/
def Juxtaposed : Expr → Prop
  | .apply _ f a => f.Juxtaposed ∧ a.IsLeaf
  | e => e.IsLeaf

/-- Any number of prefix operators in front of a juxtaposition. -/
def Prefixed : Expr → Prop
  | .unary _ _ x => x.Prefixed
  | e => e.Juxtaposed

/-- The operator between two operands that the expression is made by. -/
def operator? : Expr → Option BinaryOp
  | .binary _ op _ _ => some op
  | _ => none

/-- **The tree respects precedence and associates to the left**: below an operator there are no looser ones, and on its
    right not even one that binds as tightly. -/
def Arranged : Expr → Prop
  | .binary _ op l r => l.Arranged ∧ r.Arranged ∧
      (∀ p ∈ l.operator?, op.tier ≤ p.tier) ∧ ∀ p ∈ r.operator?, op.tier < p.tier
  | e => e.Prefixed

theorem IsLeaf.juxtaposed (h : e.IsLeaf) : e.Juxtaposed := by
  cases e with
  | apply s f a => exact h.elim
  | _ => exact h

theorem Juxtaposed.prefixed (h : e.Juxtaposed) : e.Prefixed := by
  cases e with
  | unary s op x => exact h.elim
  | _ => exact h

theorem Prefixed.arranged (h : e.Prefixed) : e.Arranged := by
  cases e with
  | binary s op l r => exact h.elim
  | _ => exact h

theorem Prefixed.not_operator (h : e.Prefixed) (op : BinaryOp) : op ∉ e.operator? := by
  intro hop
  cases e with
  | binary s p l r => exact h.elim
  | _ => cases hop

theorem Arranged.prefixed (h : e.Arranged) (hnone : e.operator? = none) : e.Prefixed := by
  cases e with
  | binary s op l r => cases hnone
  | _ => exact h

theorem IsLeaf.pieces (h : e.IsLeaf) : e.pieces = [.leaf e.bare] := by
  cases e with
  | literal s v => rfl
  | name s p => rfl
  | _ => exact h.elim

theorem pieces_ne_nil (e : Expr) : e.pieces ≠ [] := by
  induction e with
  | apply s f a ihf _ => exact append_ne_nil_of_left_ne_nil ihf _
  | binary s op l r ihl _ => exact append_ne_nil_of_left_ne_nil ihl _
  | unary s op x => exact cons_ne_nil _ _
  | _ => exact cons_ne_nil _ _

/-! ## One tree for a row of pieces -/

variable {op' : BinaryOp} {e' : Expr}

/-- A juxtaposition has no operators. -/
theorem Juxtaposed.leaf_of_mem (h : e.Juxtaposed) {p : Piece} (hp : p ∈ e.pieces) : ∃ x, p = .leaf x := by
  induction e with
  | apply s f a ihf _ =>
    rcases mem_append.mp hp with hp | hp
    · exact ihf h.1 hp
    · rw [h.2.pieces] at hp
      exact ⟨_, mem_singleton.mp hp⟩
  | literal s v => exact ⟨_, mem_singleton.mp hp⟩
  | name s q => exact ⟨_, mem_singleton.mp hp⟩
  | _ => exact h.elim

theorem Prefixed.not_binary (h : e.Prefixed) (op : BinaryOp) : .binary op ∉ e.pieces := by
  induction e with
  | unary s u x ih =>
    intro hmem
    rcases mem_cons.mp hmem with hmem | hmem
    · cases hmem
    · exact ih h hmem
  | _ =>
    intro hmem
    obtain ⟨x, hx⟩ := Juxtaposed.leaf_of_mem h hmem
    cases hx

/-- **All operators of a tree bind at least as tightly as the one it is made by.** -/
theorem Arranged.tier_le (h : e.Arranged) {n : Nat} (hn : ∀ p ∈ e.operator?, n ≤ p.tier) (hop : .binary op ∈ e.pieces) :
    n ≤ op.tier := by
  induction e with
  | binary s p l r ihl ihr =>
    obtain ⟨hl, hr, hleft, hright⟩ := h
    have hp : n ≤ p.tier := hn p rfl
    rcases mem_append.mp hop with hop | hop
    · exact ihl hl (fun q hq => Nat.le_trans hp (hleft q hq)) hop
    · rcases mem_cons.mp hop with hop | hop
      · cases hop
        exact hp
      · exact ihr hr (fun q hq => Nat.le_trans hp (Nat.le_of_lt (hright q hq))) hop
  | _ => exact absurd hop (Prefixed.not_binary h op)

theorem Juxtaposed.cases (h : e.Juxtaposed) : e.IsLeaf ∨ ∃ s f a, e = .apply s f a ∧ f.Juxtaposed ∧ a.IsLeaf := by
  cases e with
  | apply s f a => exact Or.inr ⟨s, f, a, rfl, h⟩
  | _ => exact Or.inl h

theorem IsLeaf.bare_eq (h : e.IsLeaf) (h' : e'.Juxtaposed) (hpieces : e.pieces = e'.pieces) : e.bare = e'.bare := by
  rw [h.pieces] at hpieces
  rcases h'.cases with h' | ⟨s, f, a, rfl, -, -⟩
  · rw [h'.pieces] at hpieces
    injection hpieces with hleaf _
    injection hleaf
  · -- one piece against two
    have hlength : 1 = f.pieces.length + a.pieces.length := by
      rw [← length_append]
      exact congrArg List.length hpieces
    have hf := length_pos_iff.mpr f.pieces_ne_nil
    have ha := length_pos_iff.mpr a.pieces_ne_nil
    omega

theorem Juxtaposed.bare_eq (h : e.Juxtaposed) (h' : e'.Juxtaposed) (hpieces : e.pieces = e'.pieces) :
    e.bare = e'.bare := by
  induction e generalizing e' with
  | apply s f a ihf _ =>
    rcases h'.cases with hleaf | ⟨s', f', a', rfl, hf', ha'⟩
    · exact (hleaf.bare_eq h hpieces.symm).symm
    · obtain ⟨hf, ha⟩ := append_inj' hpieces (by rw [h.2.pieces, ha'.pieces]; rfl)
      rw [bare, bare, ihf h.1 hf' hf, h.2.bare_eq ha'.juxtaposed ha]
  | literal s v => exact IsLeaf.bare_eq h h' hpieces
  | name s p => exact IsLeaf.bare_eq h h' hpieces
  | _ => exact h.elim

theorem Prefixed.cases (h : e.Prefixed) : e.Juxtaposed ∨ ∃ s op x, e = .unary s op x ∧ x.Prefixed := by
  cases e with
  | unary s op x => exact Or.inr ⟨s, op, x, rfl, h⟩
  | _ => exact Or.inl h

/-- A prefix operator is no piece of a juxtaposition. -/
theorem Juxtaposed.not_unary (h : e.Juxtaposed) {op : UnaryOp} {ps : List Piece} : e.pieces ≠ .unary op :: ps := by
  intro hpieces
  obtain ⟨x, hx⟩ := h.leaf_of_mem (hpieces ▸ mem_cons_self)
  cases hx

theorem Prefixed.bare_eq (h : e.Prefixed) (h' : e'.Prefixed) (hpieces : e.pieces = e'.pieces) : e.bare = e'.bare := by
  induction e generalizing e' with
  | unary s op x ih =>
    rcases h'.cases with hjuxtaposed | ⟨s', op', x', rfl, hx'⟩
    · exact absurd hpieces.symm hjuxtaposed.not_unary
    · injection hpieces with hop hx
      injection hop with hop
      rw [bare, bare, hop, ih h hx' hx]
  | _ =>
    rcases h'.cases with hjuxtaposed | ⟨s', op', x', rfl, -⟩
    · exact Juxtaposed.bare_eq h hjuxtaposed hpieces
    · exact absurd hpieces (Juxtaposed.not_unary h)

/-- Two splits of a row, the second not in front of the first, are the same unless its operator is on the right of the
    first one's, and that on its left. -/
theorem split_before {xs ys xs' ys' mid : List Piece} (hxs : xs' = xs ++ mid)
    (hys : .binary op :: ys = mid ++ .binary op' :: ys') (h : .binary op' ∈ ys → .binary op ∉ xs') :
    xs = xs' ∧ op = op' ∧ ys = ys' := by
  cases mid with
  | nil =>
    injection hys with hop hys
    injection hop with hop
    exact ⟨by rw [hxs, append_nil], hop, hys⟩
  | cons m mid =>
    injection hys with hm hys
    refine absurd ?_ (h ?_)
    · rw [hxs, hm]
      exact mem_append_right _ mem_cons_self
    · rw [hys]
      exact mem_append_right _ mem_cons_self

/-- A row is split at the same operator if neither operator can be on both sides of the other. -/
theorem split_unique {xs ys xs' ys' : List Piece} (h : xs ++ .binary op :: ys = xs' ++ .binary op' :: ys')
    (hright : .binary op' ∈ ys → .binary op ∉ xs') (hleft : .binary op ∈ ys' → .binary op' ∉ xs) :
    xs = xs' ∧ op = op' ∧ ys = ys' := by
  rcases append_eq_append_iff.mp h with ⟨mid, hxs, hys⟩ | ⟨mid, hxs, hys⟩
  · exact split_before hxs hys hright
  · obtain ⟨hxs, hop, hys⟩ := split_before hxs hys hleft
    exact ⟨hxs.symm, hop.symm, hys.symm⟩

/-- What is on the right of an operator in one tree is not what this operator is on the left of in another one. -/
theorem Arranged.not_crossed {l r : Expr} (hr : r.Arranged) (hright : ∀ p ∈ r.operator?, op.tier < p.tier)
    (hl : l.Arranged) (hleft : ∀ p ∈ l.operator?, op'.tier ≤ p.tier) (hop' : .binary op' ∈ r.pieces) :
    .binary op ∉ l.pieces := by
  intro hop
  have hlt : op.tier + 1 ≤ op'.tier := hr.tier_le hright hop'
  have hle : op'.tier ≤ op.tier := hl.tier_le hleft hop
  omega

/-- **There is only one arranged tree** for a row of pieces, ranges apart. -/
theorem Arranged.bare_eq (h : e.Arranged) (h' : e'.Arranged) (hpieces : e.pieces = e'.pieces) : e.bare = e'.bare := by
  induction e generalizing e' with
  | binary s op l r ihl ihr =>
    cases e' with
    | binary s' op' l' r' =>
      obtain ⟨hl, hr, hleft, hright⟩ := h
      obtain ⟨hl', hr', hleft', hright'⟩ := h'
      obtain ⟨hxs, hop, hys⟩ := split_unique hpieces (hr.not_crossed hright hl' hleft')
        (hr'.not_crossed hright' hl hleft)
      rw [bare, bare, hop, ihl hl hl' hxs, ihr hr hr' hys]
    | _ =>
      refine absurd ?_ (Prefixed.not_binary h' op)
      rw [← hpieces]
      exact mem_append_right _ mem_cons_self
  | _ =>
    cases e' with
    | binary s' op' l' r' =>
      refine absurd ?_ (Prefixed.not_binary h op')
      rw [hpieces]
      exact mem_append_right _ mem_cons_self
    | _ => exact Prefixed.bare_eq h h' hpieces

end Expr

namespace Grammar

open Parse

/-! ## Rows of words -/

/-- A literal or a name, and how it is written. -/
inductive Leaf where
  | literal (text : String) (value : Literal) (reads : literal.run text = .ok value)
  | name (path : Path) (isPath : IsPath path)

/-- The leaf as it is written. -/
def Leaf.text : Leaf → String
  | .literal text _ _ => text
  | .name path _ => path.text

/-- The leaf as an expression. -/
def Leaf.expr : Leaf → Expr
  | .literal _ value _ => .literal .nowhere value
  | .name path _ => .name .nowhere path

/-- An operand: any number of prefix operators, and leaves in juxtaposition. -/
structure Operand where
  signs : List UnaryOp
  head : Leaf
  arguments : List Leaf

/-- The words of an operand. -/
def Operand.words (x : Operand) : List String :=
  x.signs.map UnaryOp.symbol ++ x.head.text :: x.arguments.map Leaf.text

theorem Operand.words_ne_nil (x : Operand) : x.words ≠ [] :=
  append_ne_nil_of_right_ne_nil _ (cons_ne_nil _ _)

/-- The pieces of an operand. -/
def Operand.pieces (x : Operand) : List Expr.Piece :=
  x.signs.map .unary ++ .leaf x.head.expr :: x.arguments.map fun l => .leaf l.expr

/-- Operators, each with the operand behind it. -/
abbrev Links := List (BinaryOp × Operand)

/-- The words of operators and operands. -/
def linkWords (rest : Links) : List String :=
  rest.flatMap fun p => p.1.symbol :: p.2.words

/-- The pieces of operators and operands. -/
def linkPieces (rest : Links) : List Expr.Piece :=
  rest.flatMap fun p => .binary p.1 :: p.2.pieces

/-- **Operands with operators between them.** -/
structure Chain where
  first : Operand
  rest : Links

/-- The chain as it is written, with single blanks between its words. -/
def Chain.text (c : Chain) : String :=
  " ".intercalate (c.first.words ++ linkWords c.rest)

/-- The pieces of a chain. -/
def Chain.pieces (c : Chain) : List Expr.Piece :=
  c.first.pieces ++ linkPieces c.rest

/-- Words, each behind a blank. -/
def gapped (ws : List String) : List Char :=
  ws.flatMap fun w => ' ' :: w.toList

/-- Words with single blanks between them. -/
def spaced : List String → List Char
  | [] => []
  | w :: ws => w.toList ++ gapped ws

theorem toList_intercalate_blank (ws : List String) : (" ".intercalate ws).toList = spaced ws := by
  cases ws with
  | nil => rfl
  | cons w ws => exact toList_intercalate_cons " " w ws

theorem gapped_eq {ws : List String} (hws : ws ≠ []) : gapped ws = ' ' :: spaced ws := by
  obtain ⟨w, ws, rfl⟩ := exists_cons_of_ne_nil hws
  rfl

theorem gapped_append (xs ys : List String) : gapped (xs ++ ys) = gapped xs ++ gapped ys :=
  flatMap_append

theorem spaced_append {xs : List String} (hxs : xs ≠ []) (ys : List String) :
    spaced (xs ++ ys) = spaced xs ++ gapped ys := by
  obtain ⟨w, ws, rfl⟩ := exists_cons_of_ne_nil hxs
  rw [cons_append, spaced, gapped_append, spaced, append_assoc]

variable {source : Nat} {expr : Nat → Parse Expr} {cs : List Char}

theorem Leaf.inert (l : Leaf) (hcs : headIs goesOn cs = false) : Inert (l.text.toList ++ cs) := by
  cases l with
  | literal text v hv => exact inert_literal hv hcs
  | name p hp => exact inert_name hp hcs

theorem Leaf.atom_takes (l : Leaf) (h : Apart cs) :
    (atom source expr).Takes (fun e => e.bare = l.expr) (l.text.toList ++ cs) cs := by
  cases l with
  | literal text v hv => exact atom_literal .nowhere hv h
  | name p hp => exact atom_name .nowhere hp h

/-- What was read as a leaf is one. -/
theorem Leaf.isLeaf {l : Leaf} (h : e.bare = l.expr) : e.IsLeaf := by
  cases e with
  | literal s v => exact trivial
  | name s p => exact trivial
  | _ => cases l <;> cases h

theorem goesOn_gapped (ws : List String) : headIs goesOn (gapped ws) = false := by
  cases ws with
  | nil => rfl
  | cons w ws => rfl

theorem space_operand (x : Operand) (ws : List String) : headIs isSpace (spaced (x.words ++ ws)) = false := by
  obtain ⟨signs, head, arguments⟩ := x
  cases signs with
  | nil => exact (head.inert (goesOn_gapped _)).space
  | cons op signs => cases op <;> rfl

/-! ## Where an expression cannot be extended -/

variable {least : Nat}

theorem lead_operator (op : BinaryOp) (cs : List Char) :
    lead (op.symbol.toList ++ ' ' :: cs) = if op.isWord then op.symbol else "" := by
  cases op with
  | or => exact lead_append (by decide) rfl
  | and => exact lead_append (by decide) rfl
  | _ => rfl

theorem atom_refuses_operator (op : BinaryOp) (cs : List Char) :
    (atom source expr).Refuses (op.symbol.toList ++ ' ' :: cs) := by
  have hleads : ∀ op ∈ binaryOps, isName (if op.isWord then op.symbol else "") = false ∧
      (if op.isWord then op.symbol else "") ∉ ["if", "let", "True", "False"] := by decide
  obtain ⟨hname, hword⟩ := hleads op (by cases op <;> decide)
  rw [← lead_operator op cs] at hname hword
  exact atom_refuses hname hword (by cases op <;> rfl)

/-- An operator is not taken for one of another level. -/
theorem binaryOp_refuses_level {other : BinaryOp} (h : other.level ≠ op.level) (cs : List Char) :
    (binaryOp other).Refuses (op.symbol.toList ++ ' ' :: cs) := by
  have hdistinct : ∀ op ∈ binaryOps, ∀ other ∈ binaryOps, other.level ≠ op.level →
      ¬ other.symbol.toList <+: op.symbol.toList ++ [' '] ∧ ¬ op.symbol.toList ++ [' '] <+: other.symbol.toList := by
    decide
  obtain ⟨hshort, hlong⟩ := hdistinct op (by cases op <;> decide) other (by cases other <;> decide) h
  exact binaryOp_refuses hshort hlong cs

/-- **An expression is not extended by an operator below the least level.** -/
theorem extension_refuses_operator (h : op.level < least) (cs : List Char) (start : Nat) (left : Expr) :
    (extension source expr least start left).Refuses (' ' :: (op.symbol.toList ++ ' ' :: cs)) := by
  refine .orElse (.firstOf fun p hp => ?_) ?_
  · obtain ⟨other, hother, rfl⟩ := mem_map.mp hp
    have hlevel : least ≤ other.level := of_decide_eq_true (mem_filter.mp hother).2
    refine .after (blanks_one (space_operator op _)) fun _ _ => .bind (binaryOp_refuses_level ?_ cs)
    exact fun hsame => absurd (Nat.lt_of_lt_of_le h hlevel) (by omega)
  · exact .after (blanks1_one (space_operator op _)) fun _ _ => .bind (atom_refuses_operator op cs)

/-! ## Climbing -/

variable {bound limit start : Nat} {left : Expr}

/-- What is read with operators of at least a level: an arranged tree of the pieces. -/
structure Covers (least : Nat) (ps : List Expr.Piece) (e : Expr) : Prop where
  arranged : e.Arranged
  pieces : e.pieces = ps
  least_le : ∀ p ∈ e.operator?, least ≤ p.level

theorem Covers.of_prefixed (h : e.Prefixed) (least : Nat) : Covers least e.pieces e :=
  ⟨h.arranged, rfl, fun p hp => absurd hp (h.not_operator p)⟩

/-- **The step of climbing**: what was read with operators of a higher level than an operator stands on its right, and
    what was read so far on its left. -/
theorem Covers.infixed {ps qs : List Expr.Piece} {l r : Expr} (hlevel : least ≤ op.level) (hl : Covers least ps l)
    (hnext : ∀ p ∈ l.operator?, op.level ≤ p.level) (hr : Covers (op.level + 1) qs r) (s : Span) :
    Covers least (ps ++ .binary op :: qs) (.binary s op l r) := by
  refine ⟨⟨hl.arranged, hr.arranged, fun p hp => ?_, fun p hp => ?_⟩, ?_, fun p hp => ?_⟩
  · have hle := hnext p hp
    rw [BinaryOp.level_eq, BinaryOp.level_eq] at hle
    exact Nat.le_of_succ_le_succ hle
  · have hlt := hr.least_le p hp
    rw [BinaryOp.level_eq, BinaryOp.level_eq] at hlt
    exact Nat.le_of_succ_le_succ hlt
  · rw [Expr.pieces, hl.pieces, hr.pieces]
  · cases hp
    exact hlevel

/-- The links up to the first operator below a level. -/
def reach (least : Nat) (rest : Links) : Links :=
  rest.takeWhile fun p => least ≤ p.1.level

/-- The links from the first operator below a level on. -/
def beyond (least : Nat) (rest : Links) : Links :=
  rest.dropWhile fun p => least ≤ p.1.level

/-- **The parser reads chains that are shorter than the bound** as far as the level goes. -/
def Climbs (expr : Nat → Parse Expr) (bound : Nat) : Prop :=
  ∀ (least : Nat) (x : Operand) (rest : Links), (spaced (x.words ++ linkWords rest)).length < bound →
    (expr least).Takes (Covers least (x.pieces ++ linkPieces (reach least rest))) (spaced (x.words ++ linkWords rest))
      (gapped (linkWords (beyond least rest)))

theorem gapped_links (op : BinaryOp) (y : Operand) (rest : Links) :
    gapped (linkWords ((op, y) :: rest)) = ' ' :: (op.symbol.toList ++ ' ' :: spaced (y.words ++ linkWords rest)) := by
  rw [linkWords, flatMap_cons, cons_append, gapped_eq (cons_ne_nil _ _), spaced,
    gapped_eq (append_ne_nil_of_left_ne_nil y.words_ne_nil _), linkWords]

theorem reach_cons_of_le (h : least ≤ op.level) (y : Operand) (rest : Links) :
    reach least ((op, y) :: rest) = (op, y) :: reach least rest ∧ beyond least ((op, y) :: rest) = beyond least rest :=
  ⟨takeWhile_cons_of_pos (decide_eq_true h), dropWhile_cons_of_pos (decide_eq_true h)⟩

theorem reach_cons_of_lt (h : op.level < least) (y : Operand) (rest : Links) :
    reach least ((op, y) :: rest) = [] ∧ beyond least ((op, y) :: rest) = (op, y) :: rest := by
  have hlevel : ¬ decide (least ≤ op.level) = true := by
    simpa using h
  exact ⟨takeWhile_cons_of_neg hlevel, dropWhile_cons_of_neg hlevel⟩

/-- Operators that reach a higher level reach a lower one, and what is beyond that is behind them. -/
theorem reach_trans {higher : Nat} (h : least ≤ higher) (rest : Links) :
    reach least rest = reach higher rest ++ reach least (beyond higher rest) ∧
      beyond least rest = beyond least (beyond higher rest) := by
  have hpos : ∀ p ∈ reach higher rest, decide (least ≤ p.1.level) = true := by
    intro p hp
    have hp := all_eq_true.mp all_takeWhile p hp
    exact decide_eq_true (Nat.le_trans h (of_decide_eq_true hp))
  have hsplit : reach higher rest ++ beyond higher rest = rest := takeWhile_append_dropWhile
  constructor
  · calc reach least rest = reach least (reach higher rest ++ beyond higher rest) := by rw [hsplit]
      _ = reach higher rest ++ reach least (beyond higher rest) := takeWhile_append_of_pos hpos
  · calc beyond least rest = beyond least (reach higher rest ++ beyond higher rest) := by rw [hsplit]
      _ = beyond least (beyond higher rest) := dropWhile_append_of_pos hpos

theorem length_beyond (least : Nat) (rest : Links) :
    (gapped (linkWords (beyond least rest))).length ≤ (gapped (linkWords rest)).length ∧
      (beyond least rest).length ≤ rest.length := by
  have hsplit : reach least rest ++ beyond least rest = rest := takeWhile_append_dropWhile
  have hgapped : gapped (linkWords rest) =
      gapped (linkWords (reach least rest)) ++ gapped (linkWords (beyond least rest)) := by
    rw [← gapped_append, linkWords, linkWords, linkWords, ← flatMap_append, hsplit]
  have hlength : rest.length = (reach least rest).length + (beyond least rest).length := by
    rw [← length_append, hsplit]
  rw [hgapped, length_append]
  omega

/-- What is beyond an operator's own level binds no tighter than it. -/
theorem level_beyond {higher : Nat} {rest : Links} {p : BinaryOp × Operand} (hp : p ∈ (beyond higher rest).head?) :
    p.1.level < higher := by
  have hhead := head?_dropWhile_not (fun p : BinaryOp × Operand => decide (higher ≤ p.1.level)) rest
  rw [show (rest.dropWhile fun p => decide (higher ≤ p.1.level)).head? = some p from hp] at hhead
  exact Nat.lt_of_not_le (of_decide_eq_false hhead)

/-- **The operators behind an expression**: each of at least the level takes its right operand, and the expression goes
    on with it on the left. -/
theorem extendWithin_links (hexpr : Climbs expr bound) {rest : Links} {ps : List Expr.Piece}
    (hlimit : rest.length ≤ limit) (hbound : (gapped (linkWords rest)).length ≤ bound) (hleft : Covers least ps left)
    (hnext : ∀ p ∈ left.operator?, ∀ q ∈ rest.head?, q.1.level ≤ p.level) :
    (extendWithin source expr least start limit left).Takes (Covers least (ps ++ linkPieces (reach least rest)))
      (gapped (linkWords rest)) (gapped (linkWords (beyond least rest))) := by
  induction limit generalizing rest left ps with
  | zero =>
    obtain rfl : rest = [] := length_eq_zero_iff.mp (Nat.le_zero.mp hlimit)
    exact .pure ((append_nil ps).symm ▸ hleft)
  | succ limit ih =>
    cases rest with
    | nil =>
      refine .otherwise (.bind (Closes.nothing.extension_refuses least start left)) (.pure ?_)
      exact (append_nil ps).symm ▸ hleft
    | cons link rest =>
      obtain ⟨op, y⟩ := link
      rw [gapped_links] at hbound ⊢
      by_cases hlevel : least ≤ op.level
      · have hshort : (spaced (y.words ++ linkWords rest)).length < bound := by
          simp only [length_cons, length_append] at hbound
          omega
        have hright := hexpr (op.level + 1) y rest hshort
        obtain ⟨hreach, hbeyond⟩ := reach_trans (Nat.le_succ_of_le hlevel) rest
        obtain ⟨hfirst, hbehind⟩ := reach_cons_of_le hlevel y rest
        rw [hfirst, hbehind, hbeyond]
        refine .orElse (.bind (extension_infixed hlevel (space_operand y _) hright start left) ?_)
        rintro _ ⟨s, r, rfl, hr⟩
        have hstep := hleft.infixed hlevel (fun p hp => hnext p hp (op, y) rfl) hr s
        obtain ⟨hgap, hfewer⟩ := length_beyond (op.level + 1) rest
        have hlimit' : (beyond (op.level + 1) rest).length ≤ limit :=
          Nat.le_trans hfewer (Nat.le_of_succ_le_succ hlimit)
        have hbound' : (gapped (linkWords (beyond (op.level + 1) rest))).length ≤ bound := by
          rw [spaced_append y.words_ne_nil, length_append] at hshort
          omega
        have hnext' : ∀ p ∈ (Expr.binary s op left r).operator?, ∀ q ∈ (beyond (op.level + 1) rest).head?,
            q.1.level ≤ p.level := by
          intro p hp q hq
          cases hp
          exact Nat.le_of_lt_succ (level_beyond hq)
        have hpieces : ps ++ linkPieces ((op, y) :: reach least rest) =
            ps ++ .binary op :: (y.pieces ++ linkPieces (reach (op.level + 1) rest)) ++
              linkPieces (reach least (beyond (op.level + 1) rest)) := by
          rw [hreach]
          simp [linkPieces]
        rw [hpieces]
        exact ih hlimit' hbound' hstep hnext'
      · -- the operator is left to an expression around this one
        have hlt := Nat.lt_of_not_le hlevel
        obtain ⟨hreach, hbeyond⟩ := reach_cons_of_lt hlt y rest
        rw [hreach, hbeyond, gapped_links]
        refine .otherwise (.bind (extension_refuses_operator hlt _ start left)) (.pure ?_)
        exact (append_nil ps).symm ▸ hleft

theorem extendWithin_operators (hexpr : Climbs expr bound) {rest : Links} (hlimit : rest.length ≤ limit)
    (hbound : (gapped (linkWords rest)).length ≤ bound) (hleft : left.Prefixed) :
    (extendWithin source expr least start limit left).Takes
      (Covers least (left.pieces ++ linkPieces (reach least rest))) (gapped (linkWords rest))
      (gapped (linkWords (beyond least rest))) :=
  extendWithin_links hexpr hlimit hbound (.of_prefixed hleft least) fun p hp => absurd hp (hleft.not_operator p)

theorem gapped_arguments (l : Leaf) (arguments : List Leaf) (rest : Links) :
    gapped ((l :: arguments).map Leaf.text ++ linkWords rest) =
      ' ' :: (l.text.toList ++ gapped (arguments.map Leaf.text ++ linkWords rest)) :=
  rfl

theorem length_row (arguments : List Leaf) (rest : Links) :
    arguments.length + rest.length ≤ (gapped (arguments.map Leaf.text ++ linkWords rest)).length := by
  have hwords : (arguments.map Leaf.text ++ linkWords rest).length ≤
      (gapped (arguments.map Leaf.text ++ linkWords rest)).length :=
    length_le_flatMap (fun _ => cons_ne_nil _ _) _
  have hlinks : rest.length ≤ (linkWords rest).length := length_le_flatMap (fun _ => cons_ne_nil _ _) rest
  rw [length_append, length_map] at hwords
  omega

theorem apart_row (arguments : List Leaf) (rest : Links) :
    Apart (gapped (arguments.map Leaf.text ++ linkWords rest)) := by
  cases arguments with
  | nil =>
    cases rest with
    | nil => exact Closes.nothing.apart
    | cons link rest =>
      rw [map_nil, nil_append, gapped_links]
      exact apart_operator link.1 _
  | cons l arguments =>
    rw [gapped_arguments]
    exact (l.inert (goesOn_gapped _)).apart

/-- **The arguments behind an expression come first**, one after the other, and then the operators. -/
theorem extendWithin_arguments (hexpr : Climbs expr bound) {arguments : List Leaf} {rest : Links}
    (hlimit : arguments.length + rest.length ≤ limit)
    (hbound : (gapped (arguments.map Leaf.text ++ linkWords rest)).length ≤ bound) (hleft : left.Juxtaposed) :
    (extendWithin source expr least start limit left).Takes
      (Covers least (left.pieces ++ (arguments.map fun l => .leaf l.expr) ++ linkPieces (reach least rest)))
      (gapped (arguments.map Leaf.text ++ linkWords rest)) (gapped (linkWords (beyond least rest))) := by
  induction arguments generalizing left limit with
  | nil =>
    rw [length_nil, Nat.zero_add] at hlimit
    rw [map_nil, append_nil]
    exact extendWithin_operators hexpr hlimit hbound hleft.prefixed
  | cons l arguments ih =>
    rw [length_cons] at hlimit
    obtain ⟨limit, rfl⟩ : ∃ n, limit = n + 1 := ⟨limit - 1, by omega⟩
    rw [gapped_arguments] at hbound ⊢
    refine .orElse (.bind (extension_applied (l.inert (goesOn_gapped _)) (l.atom_takes (apart_row arguments rest))
      least start left) ?_)
    rintro _ ⟨s, a, rfl, ha⟩
    have hleaf := Leaf.isLeaf ha
    have hlimit' : arguments.length + rest.length ≤ limit := by
      omega
    have hbound' : (gapped (arguments.map Leaf.text ++ linkWords rest)).length ≤ bound := by
      rw [length_cons, length_append] at hbound
      omega
    have hjuxtaposed : (Expr.apply s left a).Juxtaposed := ⟨hleft, hleaf⟩
    have htakes := ih hlimit' hbound' hjuxtaposed
    rwa [Expr.pieces, hleaf.pieces, ha, append_assoc left.pieces] at htakes

/-! ## Operands -/

theorem level_lt_prefixLevel (op : BinaryOp) : op.level < prefixLevel := by
  cases op <;> decide

/-- A prefix operator and the operand behind it. -/
theorem operand_sign {ds : List Char} {P : Expr → Prop} (op : UnaryOp) (hcs : headIs isSpace cs = false)
    (h : (expr prefixLevel).Takes P cs ds) (start : Nat) :
    (operand source expr start).Takes (fun e => ∃ s x, e = .unary s op x ∧ P x) (op.symbol.toList ++ ' ' :: cs) ds := by
  have hop : (unaryOp op).Passes (op.symbol.toList ++ ' ' :: cs) (' ' :: cs) := by
    cases op with
    | neg => exact exact_takes "-" _
    | plus => exact exact_takes "+" _
    | not => exact keyword_takes "not" rfl
  have hprefixed : (prefixed source expr start op).Takes (fun e => ∃ s x, e = .unary s op x ∧ P x)
      (op.symbol.toList ++ ' ' :: cs) ds :=
    .after hop fun _ => .after (blanks_one hcs) fun _ => .bind h fun x hx =>
      .after (spanFrom_passes start) fun s => .pure ⟨s, x, rfl, hx⟩
  cases op <;> exact operand_prefixed hprefixed

/-- Behind a prefix operator no operator between operands is read. -/
theorem reach_prefixLevel (rest : Links) : reach prefixLevel rest = [] ∧ beyond prefixLevel rest = rest := by
  cases rest with
  | nil => exact ⟨rfl, rfl⟩
  | cons link rest => exact reach_cons_of_lt (level_lt_prefixLevel link.1) link.2 rest

theorem Covers.prefixed {ps : List Expr.Piece} (h : Covers prefixLevel ps e) : e.Prefixed := by
  refine h.arranged.prefixed ?_
  cases hop : e.operator? with
  | none => rfl
  | some op => exact absurd (h.least_le op hop) (Nat.not_le_of_lt (level_lt_prefixLevel op))

theorem spaced_sign (op : UnaryOp) (signs : List UnaryOp) (head : Leaf) (arguments : List Leaf) (ws : List String) :
    spaced (Operand.words ⟨op :: signs, head, arguments⟩ ++ ws) =
      op.symbol.toList ++ ' ' :: spaced (Operand.words ⟨signs, head, arguments⟩ ++ ws) := by
  rw [← gapped_eq (append_ne_nil_of_left_ne_nil (Operand.words_ne_nil _) _)]
  rfl

/-- **Expressions are read by climbing**, as deep as the text is long. -/
theorem exprWithin_climbs (source depth : Nat) : Climbs (exprWithin source depth) depth := by
  induction depth with
  | zero => exact fun _ _ _ h => absurd h (Nat.not_lt_zero _)
  | succ depth ih =>
    intro least x rest hlength
    refine .after position_passes fun start => ?_
    obtain ⟨signs, head, arguments⟩ := x
    cases signs with
    | nil =>
      have hbound : (gapped (arguments.map Leaf.text ++ linkWords rest)).length ≤ depth := by
        rw [Operand.words, map_nil, nil_append, cons_append, spaced, length_append] at hlength
        exact Nat.le_trans (Nat.le_add_left _ _) (Nat.le_of_lt_succ hlength)
      refine .bind ((head.inert (goesOn_gapped _)).operand_takes (head.atom_takes (apart_row arguments rest)) start)
        fun e he => ?_
      have hleaf := Leaf.isLeaf he
      have hlimit := Nat.le_succ_of_le (length_row arguments rest)
      have hpieces : Operand.pieces ⟨[], head, arguments⟩ = e.pieces ++ arguments.map fun l => .leaf l.expr := by
        rw [hleaf.pieces, he]
        rfl
      rw [hpieces]
      exact fun offset => extendWithin_arguments ih hlimit hbound hleaf.juxtaposed offset
    | cons op signs =>
      rw [spaced_sign] at hlength ⊢
      have hshort : (spaced (Operand.words ⟨signs, head, arguments⟩ ++ linkWords rest)).length < depth := by
        rw [length_append, length_cons] at hlength
        omega
      have hbound : (gapped (linkWords rest)).length ≤ depth := by
        rw [spaced_append (Operand.words_ne_nil _), length_append] at hshort
        omega
      have hinner := ih prefixLevel ⟨signs, head, arguments⟩ rest hshort
      obtain ⟨hreach, hbeyond⟩ := reach_prefixLevel rest
      rw [hreach, hbeyond] at hinner
      refine .bind (operand_sign op (space_operand _ _) hinner start) ?_
      rintro _ ⟨s, e, rfl, he⟩
      have hprefixed : (Expr.unary s op e).Prefixed := he.prefixed
      have hlimit := Nat.le_succ_of_le (length_row [] rest)
      rw [length_nil, Nat.zero_add] at hlimit
      have hpieces : Operand.pieces ⟨op :: signs, head, arguments⟩ = (Expr.unary s op e).pieces := by
        rw [Expr.pieces, he.pieces]
        exact congrArg (Expr.Piece.unary op :: ·) (append_nil _).symm
      rw [hpieces]
      exact fun offset => extendWithin_operators ih hlimit hbound hprefixed offset

/-! ## Chains -/

theorem reach_zero (rest : Links) : reach 0 rest = rest ∧ beyond 0 rest = [] := by
  have hlevel : ∀ p ∈ rest, decide (0 ≤ p.1.level) = true := fun p _ => decide_eq_true (Nat.zero_le _)
  constructor
  · calc reach 0 rest = reach 0 (rest ++ []) := by rw [append_nil]
      _ = rest ++ [] := takeWhile_append_of_pos hlevel
      _ = rest := append_nil rest
  · calc beyond 0 rest = beyond 0 (rest ++ []) := by rw [append_nil]
      _ = [] := dropWhile_append_of_pos hlevel

theorem chain_takes (source : Nat) (c : Chain) :
    (expression source).Takes (fun e => e.Arranged ∧ e.pieces = c.pieces) c.text.toList [] := by
  rw [Chain.text, toList_intercalate_blank]
  have hclimbs := exprWithin_climbs source _ 0 c.first c.rest (Nat.lt_succ_self _)
  obtain ⟨hreach, hbeyond⟩ := reach_zero c.rest
  rw [hreach, hbeyond] at hclimbs
  have hexpr : (Grammar.expr source).Takes (fun e => e.Arranged ∧ e.pieces = c.pieces)
      (spaced (c.first.words ++ linkWords c.rest)) [] :=
    fun offset => (hclimbs.mono fun e he => ⟨he.arranged, he.pieces⟩) offset
  refine .after (blanks_none (space_operand c.first _)) fun _ => .bind hexpr fun e he => ?_
  exact .after (blanks_none rfl) fun _ => .after (comment_refuses rfl).optional.passes fun _ => .pure he

end Grammar

open Grammar

/-- **Operators are read by precedence.** Every row of operands with operators between them, in which an operand is any
    number of prefix operators in front of literals and names in juxtaposition, is read as an expression. Its tree has
    the pieces of the row in order and is arranged: juxtaposition associates to the left, prefix operators apply to the
    whole juxtaposition behind them, and an operator has none below it that binds looser, nor on its right one that
    binds as tightly. It is the only such tree. -/
theorem chain_is_read_as_arranged_tree (source : Nat) (c : Chain) :
    ∃ e, parseExpr source c.text = .ok e ∧ e.Arranged ∧ e.pieces = c.pieces ∧
      ∀ e' : Expr, e'.Arranged → e'.pieces = c.pieces → e'.bare = e.bare := by
  obtain ⟨e, hparse, harranged, hpieces⟩ := (chain_takes source c).run
  exact ⟨e, hparse, harranged, hpieces, fun e' h h' => h.bare_eq harranged (h'.trans hpieces.symm)⟩

end UnionTyping
