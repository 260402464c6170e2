import UnionTyping.Proofs.Scanning

/-!
# `Proofs.Relocation` — what is read does not depend on where the text stands

A parser sees the offset at which the text starts, everything that follows, and a limit of nesting. What it reads
depends on none of them: the ranges move with the text, no rule looks beyond the end of a line, and the limit of
nesting is never met. All three are one statement about two runs side by side. `Mirrors k tail n m p p' f` says that on
every text of less than `n` characters `p'` does on the moved text (`k` bytes further on, with `tail` behind it) what
`p` does on the text itself, with `f` applied to what is read, and that less than `m` characters are left.

The lengths are what the limit of nesting is about: every token reads a character, so an expression inside another one
is read from a shorter text. The step is made for parsers of nested expressions that mirror one another on shorter
texts (`climb_mirrors`), and the induction is on the length (`exprWithin_mirrors`). With it the limit disappears:
`exprAbove` is the grammar without it, and satisfies the recursive equation of the grammar (`exprAbove_eq`).
-/

namespace UnionTyping

open List

/-! ## Ranges that move -/

/-- The range `k` bytes further on. -/
def Span.shift (k : Nat) (s : Span) : Span := ⟨s.source, s.start + k, s.stop + k⟩

/-- The name as it is read `k` bytes further on. -/
def Ident.shift (k : Nat) (x : Ident) : Ident := ⟨x.name, x.span.shift k⟩

namespace Expr

/-- The expression as it is read `k` bytes further on. -/
def shift (k : Nat) : Expr → Expr
  | .literal s v => .literal (s.shift k) v
  | .name s p => .name (s.shift k) p
  | .apply s f a => .apply (s.shift k) (f.shift k) (a.shift k)
  | .binary s op l r => .binary (s.shift k) op (l.shift k) (r.shift k)
  | .unary s op x => .unary (s.shift k) op (x.shift k)
  | .lambda s x b => .lambda (s.shift k) (x.shift k) (b.shift k)
  | .conditional s c a b => .conditional (s.shift k) (c.shift k) (a.shift k) (b.shift k)
  | .binding s x v b => .binding (s.shift k) (x.shift k) (v.shift k) (b.shift k)

/-- Giving an expression another range and moving it can be done in either order. -/
theorem shift_withSpan (k : Nat) (s : Span) (e : Expr) : (e.withSpan s).shift k = (e.shift k).withSpan (s.shift k) := by
  cases e <;> rfl

theorem shift_zero (e : Expr) : e.shift 0 = e := by
  induction e <;> simp_all [shift, Ident.shift, Span.shift]

end Expr

/-- The declaration as it is read `k` bytes further on. -/
def Decl.shift (k : Nat) (d : Decl) : Decl := ⟨d.name.shift k, d.body.shift k, d.span.shift k⟩

theorem Decl.shift_zero (d : Decl) : d.shift 0 = d := by
  simp [shift, Ident.shift, Span.shift, Expr.shift_zero]

namespace Grammar

/-- The same place, where the text stands `k` bytes further on and has more behind it. -/
def Cursor.moved (k : Nat) (tail : List Char) (c : Cursor) : Cursor := ⟨c.offset + k, c.rest ++ tail⟩

/-- The text is over here, or at least its line. -/
def EndsLine (cs : List Char) : Prop := Parse.headIs (fun c => !isLineEnd c) cs = false

/-- The class has no characters that end a line. -/
def WithinLine (p : Char → Bool) : Prop := p '\r' = false ∧ p '\n' = false

theorem eq_of_isLineEnd {x : Char} (h : isLineEnd x = true) : x = '\r' ∨ x = '\n' := by
  simpa [isLineEnd] using h

/-- A class within the line has no character of it where the line is over. -/
theorem EndsLine.headIs {p : Char → Bool} {tail : List Char} (htail : EndsLine tail) (hp : WithinLine p) :
    Parse.headIs p tail = false := by
  cases tail with
  | nil => rfl
  | cons x xs =>
    have hx : (!isLineEnd x) = false := htail
    rcases eq_of_isLineEnd (by simpa using hx) with rfl | rfl
    · exact hp.1
    · exact hp.2

/-- Whether the text can stand inside a line and is not empty. -/
def isInline (text : String) : Bool := !text.toList.isEmpty && text.toList.all fun c => !isLineEnd c

/-! ## Two runs side by side -/

variable {text : String}

namespace Parse

variable {α : Type} {k n : Nat} {tail : List Char}

/-- **On short texts `p'` does on the moved text what `p` does on the text itself**: it fails where `p` fails, and reads
    what `p` reads, moved by `f`. From less than `n` characters on, less than `m` are left. -/
def Mirrors (k : Nat) (tail : List Char) (n m : Nat) (p p' : Parse α) (f : α → α) : Prop :=
  ∀ c : Cursor, c.rest.length < n →
    (p' (c.moved k tail)).result = (p c).result.map (fun r => (f r.1, r.2.moved k tail)) ∧
    ∀ a d, (p c).result = some (a, d) → d.rest.length < m

section
variable {m : Nat} {p p' : Parse α} {f : α → α}

theorem Mirrors.mono {n' m' : Nat} (h : Mirrors k tail n m p p' f) (hn : n' ≤ n) (hm : m ≤ m') :
    Mirrors k tail n' m' p p' f := by
  intro c hc
  obtain ⟨hresult, hrest⟩ := h c (Nat.lt_of_lt_of_le hc hn)
  exact ⟨hresult, fun a d hread => Nat.lt_of_lt_of_le (hrest a d hread) hm⟩

/-- A parser that always reads a character may be used where one that may read none is expected. -/
theorem Mirrors.relax (h : ∀ n, Mirrors k tail (n + 1) n p p' f) (n : Nat) : Mirrors k tail n n p p' f := by
  cases n with
  | zero => exact fun c hc => absurd hc (Nat.not_lt_zero _)
  | succ n => exact (h n).mono (Nat.le_refl _) (Nat.le_succ n)

theorem Mirrors.pure {a a' : α} (h : f a = a') : Mirrors k tail n n (pure a : Parse α) (pure a') f := by
  intro c hc
  refine ⟨by rw [result_pure, result_pure, Option.map_some, h], ?_⟩
  intro b d hread
  obtain ⟨-, rfl⟩ := pure_reads.mp hread
  exact hc

/-- The second parser starts on the shorter text that the first one leaves, in both runs alike. -/
theorem Mirrors.bind {β : Type} {l : Nat} {r r' : α → Parse β} {g : β → β} (hp : Mirrors k tail n m p p' f)
    (hr : ∀ a, Mirrors k tail m l (r a) (r' (f a)) g) : Mirrors k tail n l (p >>= r) (p' >>= r') g := by
  intro c hc
  obtain ⟨hresult, hrest⟩ := hp c hc
  rw [result_bind, result_bind, hresult]
  cases hread : (p c).result with
  | none => exact ⟨rfl, fun b e h => by cases h⟩
  | some s => exact hr s.1 s.2 (hrest s.1 s.2 hread)

/-- The first choices fail together, so both runs choose alike. -/
theorem Mirrors.orElse {q q' : Parse α} (hp : Mirrors k tail n m p p' f) (hq : Mirrors k tail n m q q' f) :
    Mirrors k tail n m (p <|> q) (p' <|> q') f := by
  intro c hc
  obtain ⟨hresult, hrest⟩ := hp c hc
  rw [result_orElse, result_orElse, hresult]
  cases hread : (p c).result with
  | none => exact hq c hc
  | some s => exact ⟨rfl, fun a d h => hrest a d (hread.trans h)⟩

theorem Mirrors.fail : Mirrors k tail n m (fail : Parse α) fail f :=
  fun _ _ => ⟨rfl, fun _ _ h => by cases h⟩

theorem Mirrors.expected (token : String) : Mirrors k tail n m (expected token : Parse α) (expected token) f :=
  fun _ _ => ⟨rfl, fun _ _ h => by cases h⟩

theorem Mirrors.quiet (hp : Mirrors k tail n m p p' f) : Mirrors k tail n m p.quiet p'.quiet f :=
  fun c hc => hp c hc

theorem Mirrors.firstOf {ι : Type} {g g' : ι → Parse α} {xs : List ι}
    (h : ∀ x ∈ xs, Mirrors k tail n m (g x) (g' x) f) :
    Mirrors k tail n m (firstOf (xs.map g)) (firstOf (xs.map g')) f := by
  induction xs with
  | nil => exact .fail
  | cons x xs ih =>
    exact .orElse (h x mem_cons_self) (ih fun y hy => h y (mem_cons_of_mem x hy))

theorem Mirrors.optional (hp : Mirrors k tail n n p p' f) : Mirrors k tail n n p.optional p'.optional (Option.map f) :=
  .orElse (.bind hp fun _ => .pure rfl) (.pure rfl)

/-- Looking ahead comes to the same answer, and leaves the text as it is. -/
theorem Mirrors.notFollowedBy (hp : Mirrors k tail n m p p' f) :
    Mirrors k tail n n p.notFollowedBy p'.notFollowedBy id := by
  intro c hc
  obtain ⟨hresult, -⟩ := hp c hc
  cases hread : (p c).result with
  | none =>
    rw [hread] at hresult
    simp only [Parse.notFollowedBy, hread, hresult, Option.map_none]
    refine ⟨rfl, fun _ d h => ?_⟩
    cases h
    exact hc
  | some s =>
    rw [hread] at hresult
    simp only [Parse.notFollowedBy, hread, hresult, Option.map_some]
    exact ⟨rfl, fun _ d h => by cases h⟩

/-- Repetitions mirror one another whatever their limits are, if these are not met. -/
theorem Mirrors.manyWithin (hp : ∀ n, Mirrors k tail (n + 1) n p p' f) {limit limit' : Nat} (hn : n ≤ limit)
    (hn' : n ≤ limit') : Mirrors k tail n n (p.manyWithin limit) (p'.manyWithin limit') (List.map f) := by
  induction n generalizing limit limit' with
  | zero => exact fun c hc => absurd hc (Nat.not_lt_zero _)
  | succ n ih =>
    obtain ⟨limit, rfl⟩ : ∃ i, limit = i + 1 := ⟨limit - 1, by omega⟩
    obtain ⟨limit', rfl⟩ : ∃ i, limit' = i + 1 := ⟨limit' - 1, by omega⟩
    have hrest := ih (Nat.le_of_succ_le_succ hn) (Nat.le_of_succ_le_succ hn')
    have hmore : Mirrors k tail (n + 1) n (do return (← p) :: (← p.manyWithin limit))
        (do return (← p') :: (← p'.manyWithin limit')) (List.map f) :=
      .bind (hp n) fun _ => .bind hrest fun _ => .pure rfl
    exact .orElse (hmore.mono (Nat.le_refl _) (Nat.le_succ n)) (.pure rfl)

/-- Each repetition reads a character, so there are fewer of them than characters. -/
theorem Mirrors.many (hp : ∀ n, Mirrors k tail (n + 1) n p p' f) (n : Nat) :
    Mirrors k tail n n p.many p'.many (List.map f) := by
  intro c hc
  have hlimit : c.rest.length + 1 ≤ (c.moved k tail).rest.length + 1 := by
    simp only [Cursor.moved, length_append]
    omega
  obtain ⟨hresult, hrest⟩ := Mirrors.manyWithin hp (Nat.le_refl (c.rest.length + 1)) hlimit c (Nat.lt_succ_self _)
  exact ⟨hresult, fun a d hread => Nat.lt_of_lt_of_le (hrest a d hread) hc⟩

end

/-! ## Characters -/

variable {p : Char → Bool}

theorem position_mirrors : Mirrors k tail n n position position (· + k) := by
  intro c hc
  refine ⟨rfl, fun a d hread => ?_⟩
  cases hread
  exact hc

/-- A character beyond the seam is not read, if it is not of the class. -/
theorem char_mirrors (hstop : headIs p tail = false) (n : Nat) : Mirrors k tail (n + 1) n (char p) (char p) id := by
  rintro ⟨offset, cs⟩ hc
  cases cs with
  | nil => exact ⟨char_refuses hstop _, fun a d h => by cases h⟩
  | cons x cs =>
    have hlength : cs.length < n := Nat.lt_of_succ_lt_succ hc
    cases hx : p x with
    | true =>
      refine ⟨by simp [char, Cursor.moved, hx, Nat.add_right_comm], fun a d h => ?_⟩
      simp only [char, hx, if_true] at h
      cases h
      exact hlength
    | false =>
      refine ⟨by simp [char, Cursor.moved, hx], fun a d h => ?_⟩
      simp [char, hx] at h

/-- A row of characters of a class ends at the seam, if the text behind starts with none. -/
theorem readWhile_moved (hstop : headIs p tail = false) (offset : Nat) (cs : List Char) :
    readWhile p (offset + k) (cs ++ tail) = ((readWhile p offset cs).1, (readWhile p offset cs).2.moved k tail) := by
  induction cs generalizing offset with
  | nil =>
    cases tail with
    | nil => rfl
    | cons x xs =>
      have hx : p x = false := hstop
      simp [readWhile, hx, Cursor.moved]
  | cons x cs ih =>
    simp only [cons_append, readWhile]
    split
    · rw [Nat.add_right_comm, ih]
    · rfl

theorem chars_mirrors (hstop : headIs p tail = false) (n : Nat) : Mirrors k tail n n (chars p) (chars p) id := by
  intro c hc
  refine ⟨congrArg some (readWhile_moved hstop c.offset c.rest), fun xs d hread => ?_⟩
  obtain ⟨cs, hrest, -⟩ := (Forward.chars p).reaches hread
  rw [hrest, length_append] at hc
  omega

theorem chars1_mirrors (hstop : headIs p tail = false) (n : Nat) : Mirrors k tail (n + 1) n (chars1 p) (chars1 p) id :=
  .bind (char_mirrors hstop n) fun _ => .bind (chars_mirrors hstop n) fun _ => .pure rfl

/-- A text is not found across a seam behind which none of its characters stands. -/
theorem dropExact_moved {text : List Char} (hstop : ∀ x ∈ text, headIs (· == x) tail = false) (offset : Nat)
    (cs : List Char) :
    dropExact (offset + k) text (cs ++ tail) = (dropExact offset text cs).map (Cursor.moved k tail) := by
  induction text generalizing offset cs with
  | nil => rfl
  | cons x xs ih =>
    obtain ⟨hx, hxs⟩ := forall_mem_cons.mp hstop
    cases cs with
    | nil =>
      cases tail with
      | nil => rfl
      | cons y ys =>
        have hne : x ≠ y := fun h => by simp [headIs, h] at hx
        simp [dropExact, hne]
    | cons y ys =>
      simp only [cons_append, dropExact]
      split
      · rw [Nat.add_right_comm, ih hxs]
      · rfl

/-- A fixed text that is not empty is read alike, and leaves a shorter text. -/
theorem exact_mirrors (hne : text.toList ≠ []) (hstop : ∀ x ∈ text.toList, headIs (· == x) tail = false) (n : Nat) :
    Mirrors k tail (n + 1) n (exact text) (exact text) id := by
  intro c hc
  constructor
  · have hdrop := dropExact_moved (k := k) hstop c.offset c.rest
    simp only [exact, Cursor.moved] at hdrop ⊢
    rw [hdrop]
    cases dropExact c.offset text.toList c.rest <;> rfl
  · intro u d hread
    have hlength := congrArg List.length (exact_reads hread)
    have hpos := length_pos_iff.mpr hne
    rw [length_append] at hlength
    omega

end Parse

open Parse

/-! ## Tokens -/

variable {k n : Nat} {tail : List Char}

section
variable (htail : EndsLine tail)
include htail

/-- A token stands within its line, so the end of a line is no part of it. -/
theorem token_mirrors (htext : isInline text = true) (n : Nat) :
    Mirrors k tail (n + 1) n (exact text) (exact text) id := by
  simp only [isInline, Bool.and_eq_true, all_eq_true, Bool.not_eq_true', isEmpty_eq_false_iff] at htext
  refine exact_mirrors htext.1 (fun x hx => htail.headIs ?_) n
  have hinside := htext.2 x hx
  simp only [isLineEnd, Bool.or_eq_false_iff, beq_eq_false_iff_ne] at hinside
  exact ⟨beq_eq_false_iff_ne.mpr (Ne.symm hinside.1), beq_eq_false_iff_ne.mpr (Ne.symm hinside.2)⟩

theorem blanks_mirrors (n : Nat) : Mirrors k tail n n blanks blanks id :=
  .bind (chars_mirrors (htail.headIs ⟨rfl, rfl⟩) n) fun _ => .pure rfl

theorem blanks1_mirrors (n : Nat) : Mirrors k tail (n + 1) n blanks1 blanks1 id :=
  .bind (chars1_mirrors (htail.headIs ⟨rfl, rfl⟩) n) fun _ => .pure rfl

theorem comment_mirrors (n : Nat) : Mirrors k tail (n + 1) n comment comment id :=
  .bind (char_mirrors (htail.headIs ⟨rfl, rfl⟩) n) fun _ =>
    .bind (chars_mirrors (htail.headIs ⟨rfl, rfl⟩) n) fun _ => .pure rfl

theorem word_mirrors (n : Nat) : Mirrors k tail (n + 1) n word word id :=
  .bind (char_mirrors (htail.headIs ⟨rfl, rfl⟩) n) fun _ =>
    .bind (chars_mirrors (htail.headIs ⟨rfl, rfl⟩) n) fun _ => .pure rfl

/-- Whether a word is reserved does not depend on where it stands. -/
theorem name_mirrors (n : Nat) : Mirrors k tail (n + 1) n name name id := by
  refine .orElse (.quiet (.bind (word_mirrors htail n) fun w => ?_)) (.expected _)
  simp only [id]
  split
  · exact .fail
  · exact .pure rfl

/-- Where a line ends no longer word goes on. -/
theorem keyword_mirrors (htext : isInline text = true) (n : Nat) :
    Mirrors k tail (n + 1) n (keyword text) (keyword text) id :=
  .bind (token_mirrors htail htext n) fun _ => .notFollowedBy (.relax (char_mirrors (htail.headIs ⟨rfl, rfl⟩)) n)

theorem ident_mirrors (source n : Nat) : Mirrors k tail (n + 1) n (ident source) (ident source) (Ident.shift k) :=
  .bind position_mirrors fun _ => .bind (name_mirrors htail n) fun _ => .bind position_mirrors fun _ => .pure rfl

/-- Each further word of a path comes with a dot, so a path is a repetition that ends. -/
theorem path_mirrors (n : Nat) : Mirrors k tail (n + 1) n path path id := by
  have hwords : ∀ n, Mirrors k tail (n + 1) n (do exact "."; word) (do exact "."; word) id := fun n =>
    .bind (token_mirrors htail rfl n) fun _ => .relax (word_mirrors htail) n
  refine .bind (name_mirrors htail n) fun _ => .bind (.many hwords n) fun _ => .pure ?_
  rw [map_id]
  rfl

/-- Whether a number is too large does not depend on where it stands. -/
theorem integerLiteral_mirrors (n : Nat) : Mirrors k tail (n + 1) n integerLiteral integerLiteral id := by
  refine .orElse (.quiet (.bind (chars1_mirrors (htail.headIs ⟨rfl, rfl⟩) n) fun ds => ?_)) (.expected _)
  simp only [id]
  split
  · exact .pure rfl
  · exact .fail

theorem doubleLiteral_mirrors (n : Nat) : Mirrors k tail (n + 1) n doubleLiteral doubleLiteral id :=
  .orElse (.quiet (.bind (chars1_mirrors (htail.headIs ⟨rfl, rfl⟩) n) fun _ =>
    .bind (.relax (token_mirrors htail rfl) n) fun _ =>
    .bind (.relax (chars1_mirrors (htail.headIs ⟨rfl, rfl⟩)) n) fun _ => .pure rfl)) (.expected _)

/-- A text literal cannot go on beyond the end of its line. -/
theorem readStringChars_moved (offset : Nat) (cs : List Char) :
    readStringChars (offset + k) (cs ++ tail) =
      ((readStringChars offset cs).1, (readStringChars offset cs).2.moved k tail) := by
  fun_induction readStringChars offset cs with
  | case1 offset =>
    cases tail with
    | nil => rfl
    | cons x xs =>
      have hx : isLineEnd x = true := by simpa [EndsLine, headIs] using htail
      rcases eq_of_isLineEnd hx with rfl | rfl <;> rfl
  | case2 offset =>
    -- Behind a backslash, too, the end of a line is no character of a text.
    cases tail with
    | nil => rfl
    | cons x xs =>
      have hx : isLineEnd x = true := by simpa [EndsLine, headIs] using htail
      rcases eq_of_isLineEnd hx with rfl | rfl <;> rfl
  | case3 offset c rest x hescape xs cursor hread ih =>
    rw [hread, Nat.add_right_comm] at ih
    simp [readStringChars, hescape, ih]
  | case4 offset c rest hescape =>
    simp only [cons_append, readStringChars, hescape]
    rfl
  | case5 offset c rest hlone hpair hend =>
    rw [cons_append, readStringChars_plain (ne_backslash hlone hpair), if_pos hend]
    rfl
  | case6 offset c rest hlone hpair hend xs cursor hread ih =>
    rw [hread, Nat.add_right_comm] at ih
    rw [cons_append, readStringChars_plain (ne_backslash hlone hpair), if_neg hend, ih]

theorem stringChars_mirrors (n : Nat) : Mirrors k tail n n stringChars stringChars id := by
  intro c hc
  refine ⟨congrArg some (readStringChars_moved htail c.offset c.rest), fun xs d hread => ?_⟩
  obtain ⟨cs, hrest, -⟩ := stringChars_forward.reaches hread
  rw [hrest, length_append] at hc
  omega

theorem stringLiteral_mirrors (n : Nat) : Mirrors k tail (n + 1) n stringLiteral stringLiteral id :=
  .orElse (.quiet (.bind (token_mirrors htail rfl n) fun _ => .bind (stringChars_mirrors htail n) fun _ =>
    .bind (.relax (token_mirrors htail rfl) n) fun _ => .pure rfl)) (.expected _)

theorem booleanLiteral_mirrors (n : Nat) : Mirrors k tail (n + 1) n booleanLiteral booleanLiteral id :=
  .orElse (.bind (keyword_mirrors htail rfl n) fun _ => .pure rfl)
    (.bind (keyword_mirrors htail rfl n) fun _ => .pure rfl)

theorem literal_mirrors (n : Nat) : Mirrors k tail (n + 1) n literal literal id :=
  .orElse (doubleLiteral_mirrors htail n) <| .orElse (integerLiteral_mirrors htail n) <|
    .orElse (stringLiteral_mirrors htail n) (booleanLiteral_mirrors htail n)

theorem binaryOp_mirrors (op : BinaryOp) (n : Nat) : Mirrors k tail (n + 1) n (binaryOp op) (binaryOp op) id := by
  have htext : isInline op.symbol = true := by cases op <;> rfl
  unfold binaryOp
  split
  · exact keyword_mirrors htail htext n
  · exact token_mirrors htail htext n

theorem unaryOp_mirrors (op : UnaryOp) (n : Nat) : Mirrors k tail (n + 1) n (unaryOp op) (unaryOp op) id := by
  cases op with
  | neg => exact token_mirrors htail rfl n
  | plus => exact token_mirrors htail rfl n
  | not => exact keyword_mirrors htail rfl n

end

theorem spanFrom_mirrors (source start : Nat) :
    Mirrors k tail n n (spanFrom source start) (spanFrom source (start + k)) (Span.shift k) :=
  .bind position_mirrors fun _ => .pure rfl

/-! ## Expressions -/

section
variable {source : Nat} {expr expr' : Nat → Parse Expr} (htail : EndsLine tail)
  (hexpr : ∀ least, Mirrors k tail n n (expr least) (expr' least) (Expr.shift k))
include htail hexpr

/-- Each rule for an expression reads a token first, so the expressions inside it are read from shorter texts. -/
theorem lambda_mirrors (start : Nat) :
    Mirrors k tail (n + 1) n (lambda source expr start) (lambda source expr' (start + k)) (Expr.shift k) :=
  .bind (ident_mirrors htail source n) fun _ => .bind (blanks_mirrors htail n) fun _ =>
    .bind (.relax (token_mirrors htail rfl) n) fun _ => .bind (blanks_mirrors htail n) fun _ =>
    .bind (hexpr 0) fun _ => .bind (spanFrom_mirrors source start) fun _ => .pure rfl

theorem conditional_mirrors (start : Nat) :
    Mirrors k tail (n + 1) n (conditional source expr start) (conditional source expr' (start + k)) (Expr.shift k) :=
  .bind (keyword_mirrors htail rfl n) fun _ => .bind (blanks_mirrors htail n) fun _ => .bind (hexpr 0) fun _ =>
    .bind (blanks_mirrors htail n) fun _ => .bind (.relax (keyword_mirrors htail rfl) n) fun _ =>
    .bind (blanks_mirrors htail n) fun _ => .bind (hexpr 0) fun _ => .bind (blanks_mirrors htail n) fun _ =>
    .bind (.relax (keyword_mirrors htail rfl) n) fun _ => .bind (blanks_mirrors htail n) fun _ =>
    .bind (hexpr 0) fun _ => .bind (spanFrom_mirrors source start) fun _ => .pure rfl

theorem binding_mirrors (start : Nat) :
    Mirrors k tail (n + 1) n (binding source expr start) (binding source expr' (start + k)) (Expr.shift k) :=
  .bind (keyword_mirrors htail rfl n) fun _ => .bind (blanks_mirrors htail n) fun _ =>
    .bind (.relax (ident_mirrors htail source) n) fun _ => .bind (blanks_mirrors htail n) fun _ =>
    .bind (.relax (token_mirrors htail rfl) n) fun _ => .bind (blanks_mirrors htail n) fun _ =>
    .bind (hexpr 0) fun _ => .bind (blanks_mirrors htail n) fun _ =>
    .bind (.relax (keyword_mirrors htail rfl) n) fun _ => .bind (blanks_mirrors htail n) fun _ =>
    .bind (hexpr 0) fun _ => .bind (spanFrom_mirrors source start) fun _ => .pure rfl

/-- The range of an expression in parentheses is that of the parentheses. -/
theorem parenthesized_mirrors (start : Nat) :
    Mirrors k tail (n + 1) n (parenthesized source expr start) (parenthesized source expr' (start + k))
      (Expr.shift k) :=
  .bind (token_mirrors htail rfl n) fun _ => .bind (blanks_mirrors htail n) fun _ => .bind (hexpr 0) fun e =>
    .bind (blanks_mirrors htail n) fun _ => .bind (.relax (token_mirrors htail rfl) n) fun _ =>
    .bind (spanFrom_mirrors source start) fun s => .pure (Expr.shift_withSpan k s e)

theorem atom_mirrors : Mirrors k tail (n + 1) n (atom source expr) (atom source expr') (Expr.shift k) :=
  .bind position_mirrors fun start =>
    .orElse (lambda_mirrors htail hexpr start) <| .orElse (conditional_mirrors htail hexpr start) <|
    .orElse (binding_mirrors htail hexpr start) <|
    .orElse (.bind (literal_mirrors htail n) fun _ => .bind (spanFrom_mirrors source start) fun _ => .pure rfl) <|
    .orElse (.bind (path_mirrors htail n) fun _ => .bind (spanFrom_mirrors source start) fun _ => .pure rfl) <|
    parenthesized_mirrors htail hexpr start

theorem prefixed_mirrors (start : Nat) (op : UnaryOp) :
    Mirrors k tail (n + 1) n (prefixed source expr start op) (prefixed source expr' (start + k) op) (Expr.shift k) :=
  .bind (unaryOp_mirrors htail op n) fun _ => .bind (blanks_mirrors htail n) fun _ => .bind (hexpr _) fun _ =>
    .bind (spanFrom_mirrors source start) fun _ => .pure rfl

theorem operand_mirrors (start : Nat) :
    Mirrors k tail (n + 1) n (operand source expr start) (operand source expr' (start + k)) (Expr.shift k) :=
  .orElse (prefixed_mirrors htail hexpr start _) <| .orElse (prefixed_mirrors htail hexpr start _) <|
    .orElse (prefixed_mirrors htail hexpr start _) (atom_mirrors htail hexpr)

/-- Behind the left side, which has been read and moves with the text, an operator is read. -/
theorem infixed_mirrors (start : Nat) (left : Expr) (op : BinaryOp) :
    Mirrors k tail (n + 1) n (infixed source expr start left op) (infixed source expr' (start + k) (left.shift k) op)
      (Expr.shift k) :=
  .bind (blanks_mirrors htail (n + 1)) fun _ => .bind (binaryOp_mirrors htail op n) fun _ =>
    .bind (blanks_mirrors htail n) fun _ => .bind (hexpr _) fun _ =>
    .bind (spanFrom_mirrors source start) fun _ => .pure rfl

theorem applied_mirrors (start : Nat) (left : Expr) :
    Mirrors k tail (n + 1) n (applied source expr start left) (applied source expr' (start + k) (left.shift k))
      (Expr.shift k) :=
  .bind (.relax (blanks1_mirrors htail) (n + 1)) fun _ => .bind (atom_mirrors htail hexpr) fun _ =>
    .bind (spanFrom_mirrors source start) fun _ => .pure rfl

/-- An extension reads a token, too: an operator or at least a blank. -/
theorem extension_mirrors (least start : Nat) (left : Expr) :
    Mirrors k tail (n + 1) n (extension source expr least start left)
      (extension source expr' least (start + k) (left.shift k)) (Expr.shift k) :=
  .orElse (.firstOf fun op _ => infixed_mirrors htail hexpr start left op) (applied_mirrors htail hexpr start left)

end

/-- An operand and as many extensions as there are: an expression, by the rule for expressions inside it. -/
def climb (source : Nat) (expr : Nat → Parse Expr) (least : Nat) : Parse Expr := do
  let start ← position
  let left ← operand source expr start
  extend source expr least start left

section
variable (source : Nat) {expr expr' : Nat → Parse Expr} (htail : EndsLine tail)
  (hexpr : ∀ i ≤ n, ∀ least, Mirrors k tail i i (expr least) (expr' least) (Expr.shift k))
include htail hexpr

/-- Like any repetition, extending an expression does not depend on limits that are not met. -/
theorem extendWithin_mirrors (least start : Nat) {i limit limit' : Nat} (hi : i ≤ n) (hlimit : i ≤ limit)
    (hlimit' : i ≤ limit') (left : Expr) :
    Mirrors k tail i i (extendWithin source expr least start limit left)
      (extendWithin source expr' least (start + k) limit' (left.shift k)) (Expr.shift k) := by
  induction i generalizing limit limit' left with
  | zero => exact fun c hc => absurd hc (Nat.not_lt_zero _)
  | succ i ih =>
    obtain ⟨limit, rfl⟩ : ∃ j, limit = j + 1 := ⟨limit - 1, by omega⟩
    obtain ⟨limit', rfl⟩ : ∃ j, limit' = j + 1 := ⟨limit' - 1, by omega⟩
    have hmore : Mirrors k tail (i + 1) i
        (do let e ← extension source expr least start left; extendWithin source expr least start limit e)
        (do let e ← extension source expr' least (start + k) (left.shift k)
            extendWithin source expr' least (start + k) limit' e) (Expr.shift k) :=
      .bind (extension_mirrors htail (hexpr i (by omega)) least start left) fun e =>
        ih (by omega) (Nat.le_of_succ_le_succ hlimit) (Nat.le_of_succ_le_succ hlimit') e
    exact .orElse (hmore.mono (Nat.le_refl _) (Nat.le_succ i)) (.pure rfl)

/-- The limit of a loop over extensions is the length of the text, which is not met. -/
theorem extend_mirrors (least start : Nat) (left : Expr) :
    Mirrors k tail n n (extend source expr least start left) (extend source expr' least (start + k) (left.shift k))
      (Expr.shift k) := by
  intro c hc
  have hlimit : c.rest.length + 1 ≤ (c.moved k tail).rest.length + 1 := by
    simp only [Cursor.moved, length_append]
    omega
  have hwithin := extendWithin_mirrors source htail hexpr least start hc (Nat.le_refl _) hlimit left
  obtain ⟨hresult, hrest⟩ := hwithin c (Nat.lt_succ_self _)
  exact ⟨hresult, fun e d hread => Nat.lt_of_lt_of_le (hrest e d hread) hc⟩

/-- **One level of nesting**: an expression is read from the moved text as from the text itself, if the expressions
    inside it are, whose texts are shorter. -/
theorem climb_mirrors (least : Nat) :
    Mirrors k tail (n + 1) n (climb source expr least) (climb source expr' least) (Expr.shift k) :=
  .bind position_mirrors fun start => .bind (operand_mirrors htail (hexpr n (Nat.le_refl n)) start) fun left =>
    extend_mirrors source htail hexpr least start left

end

/-- **An expression is read alike wherever its text stands**, and whatever the limits of nesting are, if they are not
    less than the length of the text. -/
theorem exprWithin_mirrors (source : Nat) (htail : EndsLine tail) {depth depth' : Nat} (hn : n ≤ depth)
    (hn' : n ≤ depth') (least : Nat) :
    Mirrors k tail n n (exprWithin source depth least) (exprWithin source depth' least) (Expr.shift k) := by
  induction n using Nat.strongRecOn generalizing depth depth' least with
  | ind n ih =>
    cases n with
    | zero => exact fun c hc => absurd hc (Nat.not_lt_zero _)
    | succ n =>
      obtain ⟨depth, rfl⟩ : ∃ j, depth = j + 1 := ⟨depth - 1, by omega⟩
      obtain ⟨depth', rfl⟩ : ∃ j, depth' = j + 1 := ⟨depth' - 1, by omega⟩
      have hstep : Mirrors k tail (n + 1) n (climb source (exprWithin source depth) least)
          (climb source (exprWithin source depth') least) (Expr.shift k) :=
        climb_mirrors source htail (fun i hi least => ih i (by omega) (by omega) (by omega) least) least
      exact hstep.mono (Nat.le_refl _) (Nat.le_succ n)

/-! ## The grammar without a limit of nesting -/

/-- An expression whose operators have at least the given level. The limit of nesting is one that is never met. -/
def exprAbove (source least : Nat) : Parse Expr := fun c =>
  exprWithin source (c.rest.length + 1) least c

theorem expr_eq (source : Nat) : expr source = exprAbove source 0 := rfl

theorem endsLine_nil : EndsLine [] := rfl

theorem Cursor.moved_zero (c : Cursor) : c.moved 0 [] = c := by
  simp [Cursor.moved]

/-- What mirrors without moving the text or what is read does the same. -/
theorem Parse.Mirrors.result_eq {α : Type} {m : Nat} {p p' : Parse α} {f : α → α} (h : Mirrors 0 [] n m p p' f)
    (hf : ∀ a, f a = a) {c : Cursor} (hc : c.rest.length < n) : (p' c).result = (p c).result := by
  have hresult := (h c hc).1
  rw [c.moved_zero] at hresult
  rw [hresult]
  cases (p c).result with
  | none => rfl
  | some r => rw [Option.map_some, hf, r.2.moved_zero]

/-- **The limit of nesting is never met.** -/
theorem exprWithin_eq {source depth least : Nat} {c : Cursor} (hc : c.rest.length < depth) :
    (exprWithin source depth least c).result = (exprAbove source least c).result :=
  (exprWithin_mirrors source endsLine_nil (Nat.le_refl (c.rest.length + 1)) hc least).result_eq
    Expr.shift_zero (Nat.lt_succ_self _)

/-- **An expression is read alike wherever its text stands.** -/
theorem exprAbove_mirrors (source : Nat) (htail : EndsLine tail) (n least : Nat) :
    Mirrors k tail n n (exprAbove source least) (exprAbove source least) (Expr.shift k) := by
  intro c hc
  have hlength : c.rest.length + 1 ≤ (c.moved k tail).rest.length + 1 := by
    simp only [Cursor.moved, length_append]
    omega
  have hwithin := exprWithin_mirrors (k := k) source htail (Nat.le_refl (c.rest.length + 1)) hlength least
  obtain ⟨hresult, hrest⟩ := hwithin c (Nat.lt_succ_self _)
  exact ⟨hresult, fun e d hread => Nat.lt_of_lt_of_le (hrest e d hread) hc⟩

/-- **The rule for expressions in terms of itself.** -/
theorem exprAbove_eq (source least : Nat) (c : Cursor) :
    (exprAbove source least c).result = (climb source (exprAbove source) least c).result := by
  have hexpr : ∀ i ≤ c.rest.length, ∀ least,
      Mirrors 0 [] i i (exprAbove source least) (exprWithin source c.rest.length least) (Expr.shift 0) := by
    intro i hi least d hd
    obtain ⟨hresult, hrest⟩ := exprAbove_mirrors (k := 0) source endsLine_nil i least d hd
    rw [d.moved_zero] at hresult ⊢
    exact ⟨(exprWithin_eq (Nat.lt_of_lt_of_le hd hi)).trans hresult, hrest⟩
  exact (climb_mirrors source endsLine_nil hexpr least).result_eq Expr.shift_zero (Nat.lt_succ_self _)

/-! ## Lines -/

/-- **A declaration is read alike wherever it stands.** -/
theorem decl_mirrors (source : Nat) (htail : EndsLine tail) (n : Nat) :
    Mirrors k tail (n + 1) n (decl source) (decl source) (Decl.shift k) :=
  .bind position_mirrors fun start => .bind (ident_mirrors htail source n) fun _ =>
    .bind (blanks_mirrors htail n) fun _ => .bind (.relax (token_mirrors htail rfl) n) fun _ =>
    .bind (blanks_mirrors htail n) fun _ => .bind (exprAbove_mirrors source htail n 0) fun _ =>
    .bind (spanFrom_mirrors source start) fun _ => .pure rfl

/-- **A line is read alike wherever it stands.** -/
theorem line_mirrors (source : Nat) (htail : EndsLine tail) (n : Nat) :
    Mirrors k tail n n (line source) (line source) (Option.map (Decl.shift k)) :=
  .bind (blanks_mirrors htail n) fun _ => .bind (.optional (.relax (decl_mirrors source htail) n)) fun _ =>
    .bind (blanks_mirrors htail n) fun _ => .bind (.optional (.relax (comment_mirrors htail) n)) fun _ => .pure rfl

/-- The end of a line is read alike only with nothing behind the text: a line feed there would join a carriage return
    at its end. -/
theorem lineEnd_mirrors (n : Nat) : Mirrors k [] (n + 1) n lineEnd lineEnd id :=
  .orElse (.quiet (exact_mirrors (by simp) (fun _ _ => rfl) n)) (.bind (char_mirrors rfl n) fun _ => .pure rfl)

/-- Dropping the lines without a declaration and moving the others can be done in either order. -/
theorem filterMap_map_shift (ls : List (Option Decl)) :
    (ls.map (Option.map (Decl.shift k))).filterMap id = (ls.filterMap id).map (Decl.shift k) := by
  rw [filterMap_map, map_filterMap]
  rfl

/-- **The lines of a module are read alike wherever they stand.** -/
theorem lines_mirrors (source n : Nat) : Mirrors k [] n n (lines source) (lines source) (List.map (Decl.shift k)) := by
  have hline : ∀ n, Mirrors k [] (n + 1) n (do lineEnd; line source) (do lineEnd; line source)
      (Option.map (Decl.shift k)) := fun n => .bind (lineEnd_mirrors n) fun _ => line_mirrors source endsLine_nil n
  refine .bind (line_mirrors source endsLine_nil n) fun first => .bind (.many hline n) fun rest => .pure ?_
  exact (filterMap_map_shift (first :: rest)).symm

end Grammar
end UnionTyping
