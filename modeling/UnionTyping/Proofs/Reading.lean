import UnionTyping.Grammar.Line

/-!
# `Proofs.Reading` — parsers go forward on the text

Two layers that later modules share:
* **results**: what a combined parser gives in terms of its parts (`result_bind`, `result_orElse`, ...), so that
  a rule of the grammar can be taken apart step by step;
* **places**: every parser of the grammar is `Forward`. What it reads is the next part of the text, and its
  report is about a place on the way, so offsets are always those of characters of the text.
-/

namespace UnionTyping

open List

namespace Grammar

open Source (byteLength)

theorem byteLength_append (xs ys : List Char) : byteLength (xs ++ ys) = byteLength xs + byteLength ys := by
  induction xs with
  | nil => simp [byteLength]
  | cons x xs ih => simp only [cons_append, byteLength, ih, Nat.add_assoc]

/-! ## Results -/

variable {c : Cursor}

namespace Parse

variable {α β : Type}

theorem result_pure (a : α) (c : Cursor) : ((pure a : Parse α) c).result = some (a, c) := rfl

/-- The second parser starts where the first one ended, and both have to read something. -/
theorem result_bind (p : Parse α) (f : α → Parse β) (c : Cursor) :
    ((p >>= f) c).result = (p c).result.bind fun r => (f r.1 r.2).result := by
  cases hrun : p c with
  | mk result failures =>
    simp only [Bind.bind, hrun]
    cases result <;> rfl

/-- The second choice counts only where the first one fails. -/
theorem result_orElse (p q : Parse α) (c : Cursor) : ((p <|> q) c).result = (p c).result.or (q c).result := by
  cases hrun : p c with
  | mk result failures =>
    simp only [HOrElse.hOrElse, OrElse.orElse, Parse.orElse, hrun]
    cases result <;> rfl

/-- Reading one thing and then another, taken apart. -/
theorem bind_reads {p : Parse α} {f : α → Parse β} {e : Cursor} {b : β} : ((p >>= f) c).result = some (b, e) ↔
      ∃ a d, (p c).result = some (a, d) ∧ (f a d).result = some (b, e) := by
  rw [result_bind, Option.bind_eq_some_iff]
  exact Prod.exists

/-- Reading by ordered choice, taken apart. -/
theorem orElse_reads {p q : Parse α} {r : α × Cursor} : ((p <|> q) c).result = some r ↔
      (p c).result = some r ∨ (p c).result = none ∧ (q c).result = some r := by
  rw [result_orElse, Option.or_eq_some_iff]

theorem pure_reads {a b : α} {d : Cursor} : ((pure a : Parse α) c).result = some (b, d) ↔ a = b ∧ c = d := by
  rw [result_pure, Option.some.injEq, Prod.mk.injEq]

/-- What is read by an ordered choice among many was read by one of them. -/
theorem firstOf_reads {ps : List (Parse α)} {r : α × Cursor} (h : (firstOf ps c).result = some r) :
    ∃ p ∈ ps, (p c).result = some r := by
  induction ps with
  | nil => cases h
  | cons p ps ih =>
    rcases orElse_reads.mp h with h | ⟨-, h⟩
    · exact ⟨p, mem_cons_self, h⟩
    · obtain ⟨q, hq, hread⟩ := ih h
      exact ⟨q, mem_cons_of_mem p hq, hread⟩

end Parse

/-! ## Places -/

variable {offset : Nat} {text : String}

/-- Reading on from the one place, one comes to the other. -/
def Cursor.Reaches (c d : Cursor) : Prop :=
  ∃ cs, c.rest = cs ++ d.rest ∧ d.offset = c.offset + byteLength cs

namespace Cursor

variable {d : Cursor}

theorem Reaches.refl (c : Cursor) : c.Reaches c :=
  ⟨[], rfl, rfl⟩

theorem Reaches.trans {e : Cursor} (h : c.Reaches d) (h' : d.Reaches e) : c.Reaches e := by
  obtain ⟨cs, hrest, hoffset⟩ := h
  obtain ⟨ds, hrest', hoffset'⟩ := h'
  refine ⟨cs ++ ds, ?_, ?_⟩
  · rw [hrest, hrest', append_assoc]
  · rw [hoffset', hoffset, byteLength_append, Nat.add_assoc]

theorem Reaches.le (h : c.Reaches d) : c.offset ≤ d.offset := by
  obtain ⟨cs, -, hoffset⟩ := h
  omega

/-- What is reached from behind a character is reached from before it. -/
theorem Reaches.cons {x : Char} {rest : List Char} (h : (⟨offset + x.utf8Size, rest⟩ : Cursor).Reaches d) :
    (⟨offset, x :: rest⟩ : Cursor).Reaches d :=
  Reaches.trans ⟨[x], rfl, rfl⟩ h

end Cursor

/-- The report is about a place that is reached from the cursor, unless it is about none at all. -/
def Failures.On (c : Cursor) (f : Failures) : Prop :=
  f.offset = 0 ∨ ∃ d, c.Reaches d ∧ d.offset = f.offset

namespace Failures

variable {f : Failures}

theorem On.empty (c : Cursor) : On c {} :=
  .inl rfl

/-- A complaint about the place where the parser stands. -/
theorem On.here (c : Cursor) (tokens : List String) : On c ⟨c.offset, tokens⟩ :=
  .inr ⟨c, .refl c, rfl⟩

/-- A report from further on in the text is a report from here. -/
theorem On.back {d : Cursor} (h : c.Reaches d) (hf : On d f) : On c f :=
  hf.imp_right fun ⟨e, hde, he⟩ => ⟨e, h.trans hde, he⟩

/-- The further one of two reports is one of them. -/
theorem On.merge {g : Failures} (hf : On c f) (hg : On c g) : On c (f.merge g) := by
  unfold Failures.merge
  split
  · exact hg
  · split
    · exact hf
    · exact hf

end Failures

namespace Parse

variable {α : Type}

/-- **The parser goes forward on the text**: what it reads is the next part of the text, and its report is
    about a place that is reached from where it starts. -/
structure Forward (p : Parse α) : Prop where
  reaches : ∀ {c a d}, (p c).result = some (a, d) → c.Reaches d
  report : ∀ c, Failures.On c (p c).failures

/-! ### Combined parsers -/

theorem Forward.pure (a : α) : (pure a : Parse α).Forward where
  reaches h := (pure_reads.mp h).2 ▸ .refl _
  report c := .empty c

/-- The second parser goes on from where the first one ended, and of their reports the further one is kept. -/
theorem Forward.bind {β : Type} {p : Parse α} {f : α → Parse β} (hp : p.Forward) (hf : ∀ a, (f a).Forward) :
    (p >>= f).Forward where
  reaches h := by
    obtain ⟨a, d, hread, hthen⟩ := bind_reads.mp h
    exact (hp.reaches hread).trans ((hf a).reaches hthen)
  report c := by
    have hreport := hp.report c
    cases hrun : p c with
    | mk result failures =>
      simp only [hrun] at hreport
      simp only [Bind.bind, hrun]
      cases result with
      | none => exact hreport
      | some r => exact hreport.merge (.back (hp.reaches (by rw [hrun])) ((hf r.1).report r.2))

/-- Both choices start at the same place, so whichever reads goes forward from there. -/
theorem Forward.orElse {p q : Parse α} (hp : p.Forward) (hq : q.Forward) : (p <|> q).Forward where
  reaches h := (orElse_reads.mp h).elim hp.reaches fun h => hq.reaches h.2
  report c := by
    have hreport := hp.report c
    cases hrun : p c with
    | mk result failures =>
      simp only [hrun] at hreport
      simp only [HOrElse.hOrElse, OrElse.orElse, Parse.orElse, hrun]
      cases result with
      | some r => exact hreport
      | none => exact hreport.merge (hq.report c)

theorem Forward.fail : (fail : Parse α).Forward where
  reaches h := by cases h
  report c := .empty c

theorem Forward.expected (token : String) : (expected token : Parse α).Forward where
  reaches h := by cases h
  report c := .here c [token]

/-- A parser that is kept quiet reads what it did, and reports nothing. -/
theorem Forward.quiet {p : Parse α} (hp : p.Forward) : p.quiet.Forward where
  reaches h := hp.reaches h
  report c := .empty c

theorem Forward.firstOf {ps : List (Parse α)} (h : ∀ p ∈ ps, p.Forward) : (firstOf ps).Forward := by
  induction ps with
  | nil => exact .fail
  | cons p ps ih =>
    exact .orElse (h p mem_cons_self) (ih fun q hq => h q (mem_cons_of_mem p hq))

theorem Forward.optional {p : Parse α} (hp : p.Forward) : p.optional.Forward :=
  .orElse (.bind hp fun _ => .pure _) (.pure _)

/-- Looking ahead takes nothing from the text. What the parser would have read does not matter. -/
theorem Forward.notFollowedBy (p : Parse α) : p.notFollowedBy.Forward where
  reaches {c a d} h := by
    unfold Parse.notFollowedBy at h
    split at h
    · cases h
    · cases h
      exact .refl c
  report c := by
    unfold Parse.notFollowedBy
    split <;> exact .empty c

/-- Repetition, by induction on the number of rounds that are left. -/
theorem Forward.many {p : Parse α} (hp : p.Forward) : p.many.Forward := by
  have hwithin : ∀ limit, (p.manyWithin limit).Forward := by
    intro limit
    induction limit with
    | zero => exact .pure []
    | succ limit ih => exact .orElse (.bind hp fun _ => .bind ih fun _ => .pure _) (.pure [])
  exact ⟨fun h => (hwithin _).reaches h, fun c => (hwithin _).report c⟩

/-! ### Characters -/

theorem Forward.position : position.Forward where
  reaches h := by
    cases h
    exact .refl _
  report c := .empty c

theorem Forward.char (p : Char → Bool) : (char p).Forward where
  reaches {c a d} h := by
    unfold Parse.char at h
    split at h
    · rename_i hrest
      split at h
      · cases h
        exact ⟨[_], hrest, rfl⟩
      · cases h
    · cases h
  report c := by
    unfold Parse.char
    split
    · split <;> exact .empty c
    · exact .empty c

/-- The characters that are taken as long as they belong to a class are the next ones of the text. -/
theorem readWhile_reaches (p : Char → Bool) (offset : Nat) (cs : List Char) :
    (⟨offset, cs⟩ : Cursor).Reaches (readWhile p offset cs).2 := by
  induction cs generalizing offset with
  | nil => exact .refl _
  | cons x rest ih =>
    rw [readWhile]
    split
    · exact (ih _).cons
    · exact .refl _

theorem Forward.chars (p : Char → Bool) : (chars p).Forward where
  reaches {c a d} h := by
    injection h with h
    have hd : (readWhile p c.offset c.rest).2 = d := congrArg Prod.snd h
    exact hd ▸ readWhile_reaches p c.offset c.rest
  report c := .empty c

theorem Forward.chars1 (p : Char → Bool) : (chars1 p).Forward :=
  .bind (.char p) fun _ => .bind (.chars p) fun _ => .pure _

/-- A text that can be dropped stands at the start of what is left. -/
theorem dropExact_eq_some {text cs : List Char} {d : Cursor} (h : dropExact offset text cs = some d) :
    cs = text ++ d.rest ∧ d.offset = offset + byteLength text := by
  fun_induction dropExact offset text cs with
  | case1 offset rest => cases h; exact ⟨rfl, rfl⟩
  | case2 offset x xs rest ih =>
    obtain ⟨hrest, hoffset⟩ := ih h
    exact ⟨by rw [cons_append, ← hrest], by rw [hoffset, byteLength, Nat.add_assoc]⟩
  | case3 => cases h
  | case4 => cases h

/-- A fixed text is read where it stands, and the offset grows by its bytes. -/
theorem exact_spans {d : Cursor} {u : Unit} (h : (exact text c).result = some (u, d)) :
    c.rest = text.toList ++ d.rest ∧ d.offset = c.offset + byteLength text.toList := by
  unfold Parse.exact at h
  split at h
  · rename_i e hdrop
    cases h
    exact dropExact_eq_some hdrop
  · cases h

theorem exact_reads {d : Cursor} {u : Unit} (h : (exact text c).result = some (u, d)) :
    c.rest = text.toList ++ d.rest :=
  (exact_spans h).1

theorem Forward.exact (text : String) : (exact text).Forward where
  reaches h := ⟨_, exact_spans h⟩
  report c := by
    unfold Parse.exact
    split
    · exact .empty c
    · exact .here c _

/-- The end of the text is missed at the place where the parser stands. -/
theorem Forward.finish : finish.Forward where
  reaches {c a d} h := by
    unfold Parse.finish at h
    split at h
    · cases h
      exact .refl _
    · cases h
  report c := by
    unfold Parse.finish
    split
    · exact .empty c
    · exact .here c _

end Parse

open Parse

/-! ## Tokens -/

theorem blanks_forward : blanks.Forward :=
  .bind (.chars _) fun _ => .pure _

theorem blanks1_forward : blanks1.Forward :=
  .bind (.chars1 _) fun _ => .pure _

theorem lineEnd_forward : lineEnd.Forward :=
  .orElse (.quiet (.exact _)) (.bind (.char _) fun _ => .pure _)

theorem comment_forward : comment.Forward :=
  .bind (.char _) fun _ => .bind (.chars _) fun _ => .pure _

theorem word_forward : word.Forward :=
  .bind (.char _) fun _ => .bind (.chars _) fun _ => .pure _

/-- A reserved word is read and then refused, which counts as reading nothing. -/
theorem name_forward : name.Forward := by
  refine .orElse (.quiet (.bind word_forward fun w => ?_)) (.expected _)
  split
  · exact .fail
  · exact .pure w

/-- Whether a longer word starts with the keyword is found out by looking ahead. -/
theorem keyword_forward (text : String) : (keyword text).Forward :=
  .bind (.exact text) fun _ => .notFollowedBy _

theorem ident_forward (source : Nat) : (ident source).Forward :=
  .bind .position fun _ => .bind name_forward fun _ => .bind .position fun _ => .pure _

theorem path_forward : path.Forward :=
  .bind name_forward fun _ => .bind (.many (.bind (.exact _) fun _ => word_forward)) fun _ => .pure _

/-- Digits of a number that is too large are refused like any other missing number. -/
theorem integerLiteral_forward : integerLiteral.Forward := by
  refine .orElse (.quiet (.bind (.chars1 _) fun ds => ?_)) (.expected _)
  split
  · exact .pure _
  · exact .fail

theorem doubleLiteral_forward : doubleLiteral.Forward :=
  .orElse (.quiet (.bind (.chars1 _) fun _ => .bind (.exact _) fun _ => .bind (.chars1 _) fun _ => .pure _))
    (.expected _)

/-- The letters that may stand behind a backslash take one byte each. -/
theorem utf8Size_of_unescape? {c x : Char} (h : unescape? c = some x) : c.utf8Size = 1 := by
  unfold unescape? at h
  split at h
  · decide
  · decide
  · decide
  · decide
  · decide
  · cases h

/-- The characters of a text literal are the next ones of the text, an escaped one with its backslash. -/
theorem readStringChars_reaches (offset : Nat) (cs : List Char) :
    (⟨offset, cs⟩ : Cursor).Reaches (readStringChars offset cs).2 := by
  fun_induction readStringChars offset cs with
  | case1 => exact .refl _
  | case2 => exact .refl _
  | case3 offset c rest x hescape xs cursor hread ih =>
    -- The backslash and the letter behind it take one byte each.
    have hsize : offset + 2 = offset + '\\'.utf8Size + c.utf8Size := by
      rw [utf8Size_of_unescape? hescape]
      rfl
    rw [hread, hsize] at ih
    exact ih.cons.cons
  | case4 => exact .refl _
  | case5 => exact .refl _
  | case6 offset c rest _ _ _ xs cursor hread ih =>
    rw [hread] at ih
    exact ih.cons

theorem stringChars_forward : stringChars.Forward where
  reaches {c a d} h := by
    injection h with h
    have hd : (readStringChars c.offset c.rest).2 = d := congrArg Prod.snd h
    exact hd ▸ readStringChars_reaches c.offset c.rest
  report c := .empty c

theorem stringLiteral_forward : stringLiteral.Forward :=
  .orElse (.quiet (.bind (.exact _) fun _ => .bind stringChars_forward fun _ => .bind (.exact _) fun _ => .pure _))
    (.expected _)

theorem booleanLiteral_forward : booleanLiteral.Forward :=
  .orElse (.bind (keyword_forward _) fun _ => .pure _) (.bind (keyword_forward _) fun _ => .pure _)

theorem literal_forward : literal.Forward :=
  .orElse doubleLiteral_forward (.orElse integerLiteral_forward (.orElse stringLiteral_forward booleanLiteral_forward))

/-! ## Expressions -/

/-- Operators that are words are read as keywords, the others as they are written. -/
theorem binaryOp_forward (op : BinaryOp) : (binaryOp op).Forward := by
  unfold binaryOp
  split
  · exact keyword_forward _
  · exact .exact _

theorem unaryOp_forward (op : UnaryOp) : (unaryOp op).Forward := by
  cases op with
  | neg => exact .exact _
  | plus => exact .exact _
  | not => exact keyword_forward _

theorem spanFrom_forward (source start : Nat) : (spanFrom source start).Forward :=
  .bind .position fun _ => .pure _

section
variable {source : Nat} {expr : Nat → Parse Expr} (hexpr : ∀ least, (expr least).Forward)
include hexpr

theorem lambda_forward (start : Nat) : (lambda source expr start).Forward :=
  .bind (ident_forward source) fun _ => .bind blanks_forward fun _ => .bind (.exact _) fun _ =>
    .bind blanks_forward fun _ => .bind (hexpr 0) fun _ => .bind (spanFrom_forward source start) fun _ => .pure _

theorem conditional_forward (start : Nat) : (conditional source expr start).Forward :=
  .bind (keyword_forward _) fun _ => .bind blanks_forward fun _ => .bind (hexpr 0) fun _ =>
    .bind blanks_forward fun _ => .bind (keyword_forward _) fun _ => .bind blanks_forward fun _ =>
    .bind (hexpr 0) fun _ => .bind blanks_forward fun _ => .bind (keyword_forward _) fun _ =>
    .bind blanks_forward fun _ => .bind (hexpr 0) fun _ => .bind (spanFrom_forward source start) fun _ => .pure _

theorem binding_forward (start : Nat) : (binding source expr start).Forward :=
  .bind (keyword_forward _) fun _ => .bind blanks_forward fun _ => .bind (ident_forward source) fun _ =>
    .bind blanks_forward fun _ => .bind (.exact _) fun _ => .bind blanks_forward fun _ =>
    .bind (hexpr 0) fun _ => .bind blanks_forward fun _ => .bind (keyword_forward _) fun _ =>
    .bind blanks_forward fun _ => .bind (hexpr 0) fun _ => .bind (spanFrom_forward source start) fun _ => .pure _

theorem parenthesized_forward (start : Nat) : (parenthesized source expr start).Forward :=
  .bind (.exact _) fun _ => .bind blanks_forward fun _ => .bind (hexpr 0) fun _ =>
    .bind blanks_forward fun _ => .bind (.exact _) fun _ => .bind (spanFrom_forward source start) fun _ => .pure _

/-- The forms of an atom, in the order in which they are tried. -/
theorem atom_forward : (atom source expr).Forward :=
  .bind .position fun start =>
    .orElse (lambda_forward hexpr start) <| .orElse (conditional_forward hexpr start) <|
    .orElse (binding_forward hexpr start) <|
    .orElse (.bind literal_forward fun _ => .bind (spanFrom_forward source start) fun _ => .pure _) <|
    .orElse (.bind path_forward fun _ => .bind (spanFrom_forward source start) fun _ => .pure _) <|
    parenthesized_forward hexpr start

theorem prefixed_forward (start : Nat) (op : UnaryOp) : (prefixed source expr start op).Forward :=
  .bind (unaryOp_forward op) fun _ => .bind blanks_forward fun _ => .bind (hexpr _) fun _ =>
    .bind (spanFrom_forward source start) fun _ => .pure _

theorem operand_forward (start : Nat) : (operand source expr start).Forward :=
  .orElse (prefixed_forward hexpr start _) <| .orElse (prefixed_forward hexpr start _) <|
    .orElse (prefixed_forward hexpr start _) (atom_forward hexpr)

theorem infixed_forward (start : Nat) (left : Expr) (op : BinaryOp) : (infixed source expr start left op).Forward :=
  .bind blanks_forward fun _ => .bind (binaryOp_forward op) fun _ => .bind blanks_forward fun _ =>
    .bind (hexpr _) fun _ => .bind (spanFrom_forward source start) fun _ => .pure _

theorem applied_forward (start : Nat) (left : Expr) : (applied source expr start left).Forward :=
  .bind blanks1_forward fun _ => .bind (atom_forward hexpr) fun _ =>
    .bind (spanFrom_forward source start) fun _ => .pure _

/-- What may follow an expression: an operator of at least the given level with its right side, or an argument. -/
theorem extension_forward (least start : Nat) (left : Expr) : (extension source expr least start left).Forward := by
  refine .orElse (.firstOf ?_) (applied_forward hexpr start left)
  intro p hp
  obtain ⟨op, -, rfl⟩ := mem_map.mp hp
  exact infixed_forward hexpr start left op

/-- The loop over extensions, by induction on the number that is left. -/
theorem extend_forward (least start : Nat) (left : Expr) : (extend source expr least start left).Forward := by
  have hwithin : ∀ limit left, (extendWithin source expr least start limit left).Forward := by
    intro limit
    induction limit with
    | zero => exact fun left => .pure left
    | succ limit ih => exact fun left => .orElse (.bind (extension_forward hexpr least start left) ih) (.pure left)
  exact ⟨fun h => (hwithin _ left).reaches h, fun c => (hwithin _ left).report c⟩

end

/-- Each level of nesting goes forward if the one inside it does, so the induction is on the limit of nesting. -/
theorem exprWithin_forward (source depth least : Nat) : (exprWithin source depth least).Forward := by
  induction depth generalizing least with
  | zero => exact .fail
  | succ depth ih =>
    exact .bind .position fun start => .bind (operand_forward ih start) fun left => extend_forward ih least start left

/-- **Reading an expression goes forward on the text.** -/
theorem expr_forward (source : Nat) : (expr source).Forward where
  reaches h := (exprWithin_forward source _ 0).reaches h
  report c := (exprWithin_forward source _ 0).report c

/-! ## Modules -/

theorem decl_forward (source : Nat) : (decl source).Forward :=
  .bind .position fun start => .bind (ident_forward source) fun _ => .bind blanks_forward fun _ =>
    .bind (.exact _) fun _ => .bind blanks_forward fun _ => .bind (expr_forward source) fun _ =>
    .bind (spanFrom_forward source start) fun _ => .pure _

/-- A line has a declaration, a comment, both or neither. -/
theorem line_forward (source : Nat) : (line source).Forward :=
  .bind blanks_forward fun _ => .bind (.optional (decl_forward source)) fun _ => .bind blanks_forward fun _ =>
    .bind (.optional comment_forward) fun _ => .pure _

/-- **Reading a module goes forward on its text.** -/
theorem lines_forward (source : Nat) : (lines source).Forward :=
  .bind (line_forward source) fun _ =>
    .bind (.many (.bind lineEnd_forward fun _ => line_forward source)) fun _ => .pure _

/-- **Reading an expression on its own goes forward on its text.** -/
theorem expression_forward (source : Nat) : (expression source).Forward :=
  .bind blanks_forward fun _ => .bind (expr_forward source) fun _ => .bind blanks_forward fun _ =>
    .bind (.optional comment_forward) fun _ => .pure _

/-! ## Whole texts -/

/-- A whole text that was read was read to its end. -/
theorem run_reads {α : Type} {p : Parse α} {a : α} (h : p.run text = .ok a) :
    ∃ d, (p (.start text)).result = some (a, d) ∧ d.rest = [] := by
  unfold Parse.run at h
  extract_lets reply at h
  split at h
  · rename_i b e hreply
    injection h with h
    obtain ⟨a', d, hread, hrest⟩ := bind_reads.mp hreply
    obtain ⟨_, d', hfinish, hpure⟩ := bind_reads.mp hrest
    obtain ⟨rfl, rfl⟩ := pure_reads.mp hpure
    refine ⟨d, h ▸ hread, ?_⟩
    unfold finish at hfinish
    split at hfinish
    · assumption
    · cases hfinish
  · cases h

/-- And the other way round. -/
theorem run_of_reads {α : Type} {p : Parse α} {a : α} (h : (p (.start text)).result = some (a, ⟨offset, []⟩)) :
    p.run text = .ok a := by
  have hwhole : ((do let a ← p; finish; return a : Parse α) (.start text)).result = some (a, ⟨offset, []⟩) :=
    bind_reads.mpr ⟨a, _, h, bind_reads.mpr ⟨(), _, rfl, rfl⟩⟩
  unfold Parse.run
  extract_lets reply
  rw [hwhole]

/-- **A text that cannot be read fails at one of its places.** -/
theorem Parse.Forward.run_error {α : Type} {p : Parse α} {e : SyntaxError} (hp : p.Forward)
    (h : p.run text = .error e) :
    ∃ before after, text.toList = before ++ after ∧ e.offset = byteLength before := by
  have hwhole : (do let a ← p; Parse.finish; return a : Parse α).Forward :=
    .bind hp fun _ => .bind .finish fun _ => .pure _
  unfold Parse.run at h
  extract_lets reply at h
  split at h
  · cases h
  · cases h
    rcases hwhole.report (.start text) with hzero | ⟨d, ⟨cs, hrest, hoffset⟩, hd⟩
    · exact ⟨[], text.toList, rfl, hzero⟩
    · refine ⟨cs, d.rest, hrest, ?_⟩
      rw [← Nat.zero_add (byteLength cs)]
      exact hd.symm.trans hoffset

end Grammar
end UnionTyping
