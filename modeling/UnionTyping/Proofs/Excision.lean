import UnionTyping.Proofs.LineByLine
import UnionTyping.Proofs.Lookahead

/-!
# `Proofs.Excision` — an expression cut out of its text is read alike

What is read from a text up to some place should also be read from the text cut off there. For tokens this is so
without more: they end where a character of some class does not follow, and at the end of the text none does. For
expressions it is not: cut off behind `a` the text `a -> b` is a name, and `a + b` cut off behind the sum of a longer
one has nothing to be extended with. `Over` says what is needed where an expression ends: what does not go on there in
the whole text does not go on in the text that is cut off. It holds
* where the text is cut off, since nothing is left to go on with;
* in front of `then`, `else`, `in` and a closing parenthesis, which go on with no expression;
* in front of a sequel that is read in both texts, since no other one is read there (`Sequel.unique`).

`Cuts tail n m G p` says it of a parser: what `p` reads from a text with `tail` behind it, it reads without `tail` too,
if `G` holds where it stops. As in two runs side by side, the lengths carry the induction on nesting.
-/

namespace UnionTyping

open List

namespace Grammar

open Parse

/-! ## Places in front of more text -/

variable {tail cs : List Char} {c d : Cursor}

theorem Cursor.moved_inj {k : Nat} (h : c.moved k tail = d.moved k tail) : c = d := by
  obtain ⟨offset, rest⟩ := c
  obtain ⟨stop, left⟩ := d
  injection h with hoffset hrest
  exact congr (congrArg Cursor.mk (Nat.add_right_cancel hoffset)) (append_cancel_right hrest)

/-- What comes before a place in front of `tail` is in front of `tail`. -/
theorem Cursor.Reaches.eq_moved (h : c.Reaches (d.moved 0 tail)) :
    ∃ c₀ : Cursor, c = c₀.moved 0 tail ∧ c₀.Reaches d := by
  obtain ⟨offset, rest⟩ := c
  obtain ⟨cs, hrest, hoffset⟩ := h
  refine ⟨⟨offset, cs ++ d.rest⟩, ?_, cs, rfl, hoffset⟩
  simp only [Cursor.moved] at hrest ⊢
  rw [hrest, append_assoc]
  rfl

theorem Cursor.Reaches.of_moved (h : (c.moved 0 tail).Reaches (d.moved 0 tail)) : c.Reaches d := by
  obtain ⟨c₀, hc₀, hreaches⟩ := h.eq_moved
  rwa [Cursor.moved_inj hc₀]

theorem Cursor.Reaches.eq_of_rest (h : c.Reaches d) (hrest : c.rest = d.rest) : c = d := by
  obtain ⟨offset, rest⟩ := c
  obtain ⟨stop, left⟩ := d
  obtain ⟨xs, hxs, hoffset⟩ := h
  simp only at hrest hxs hoffset
  subst hrest
  obtain rfl : xs = [] := append_left_eq_self.mp hxs.symm
  rw [hoffset]
  rfl

theorem rest_of_moved (h : (c.moved 0 tail).rest = cs ++ (d.moved 0 tail).rest) : c.rest = cs ++ d.rest := by
  have happend : c.rest ++ tail = cs ++ d.rest ++ tail := by
    rw [append_assoc]
    exact h
  exact append_cancel_right happend

theorem headIs_of_moved {p : Char → Bool} (h : headIs p (c.moved 0 tail).rest = false) : headIs p c.rest = false := by
  obtain ⟨offset, rest⟩ := c
  cases rest with
  | nil => rfl
  | cons x rest => exact h

theorem followsPoint_of_moved {p : Char → Bool} (h : followsPoint p (c.moved 0 tail).rest = false) :
    followsPoint p c.rest = false := by
  obtain ⟨offset, rest⟩ := c
  unfold followsPoint
  split
  · rename_i x more hrest
    simp only at hrest
    subst hrest
    exact h
  · rfl

namespace Parse

variable {α : Type} {p : Parse α}

/-- A parser that takes the text between two places reads from the one to the other. -/
theorem Forward.reads_of_takes {a : α} (hp : p.Forward) (hreaches : c.Reaches d) (h : p.Takes (· = a) c.rest d.rest) :
    (p c).result = some (a, d) := by
  obtain ⟨b, stop, hread, rfl⟩ := h c.offset
  obtain ⟨xs, hxs, hstop⟩ := hp.reaches hread
  obtain ⟨ys, hys, hoffset⟩ := hreaches
  obtain rfl : ys = xs := append_cancel_right (hys.symm.trans hxs)
  obtain ⟨offset, rest⟩ := d
  simp only at hstop hoffset
  rw [hoffset, ← hstop]
  exact hread

/-! ## What is read from a text that is cut off -/

variable {β κ : Type} {n m l : Nat} {G H : Cursor → Prop} {q : Parse α}

/-- **What `p` reads in front of `tail` it reads without `tail` too**, if `G` holds where it stops. From less than `n`
    characters in front of `tail`, less than `m` are left. -/
structure Cuts (tail : List Char) (n m : Nat) (G : Cursor → Prop) (p : Parse α) : Prop where
  forward : p.Forward
  reads : ∀ {c : Cursor} {a : α} {d : Cursor}, c.rest.length < n →
    (p (c.moved 0 tail)).result = some (a, d.moved 0 tail) → d.rest.length < m ∧ (G d → (p c).result = some (a, d))

theorem Cuts.mono {n' m' : Nat} (h : Cuts tail n m G p) (hn : n' ≤ n) (hm : m ≤ m') : Cuts tail n' m' G p where
  forward := h.forward
  reads hc hread := by
    obtain ⟨hshort, hcut⟩ := h.reads (Nat.lt_of_lt_of_le hc hn) hread
    exact ⟨Nat.lt_of_lt_of_le hshort hm, hcut⟩

theorem Cuts.relax (h : ∀ n, Cuts tail (n + 1) n G p) (n : Nat) : Cuts tail n n G p :=
  (h n).mono (Nat.le_succ n) (Nat.le_refl n)

theorem Cuts.pure (a : α) : Cuts tail n n G (pure a) where
  forward := .pure a
  reads hc hread := by
    obtain ⟨rfl, hd⟩ := pure_reads.mp hread
    rw [← Cursor.moved_inj hd]
    exact ⟨hc, fun _ => rfl⟩

/-- One parser behind another one. What is read behind the first one has to tell that its condition holds. -/
theorem Cuts.bind_of {f : α → Parse β} (hp : Cuts tail n m G p) (hf : ∀ a, Cuts tail m l H (f a))
    (hG : ∀ {a : α} {b : β} {d e : Cursor}, (f a d).result = some (b, e) → H e → G d) : Cuts tail n l H (p >>= f) where
  forward := .bind hp.forward fun a => (hf a).forward
  reads hc hread := by
    obtain ⟨a, d', ha, hthen⟩ := bind_reads.mp hread
    obtain ⟨d, rfl, -⟩ := ((hf a).forward.reaches hthen).eq_moved
    obtain ⟨hshort, hcut⟩ := hp.reads hc ha
    obtain ⟨hshort', hcut'⟩ := (hf a).reads hshort hthen
    refine ⟨hshort', fun hH => ?_⟩
    exact bind_reads.mpr ⟨a, d, hcut (hG (hcut' hH) hH), hcut' hH⟩

/-- A token in front of another parser. -/
theorem Cuts.bind {f : α → Parse β} (hp : Cuts tail n m (fun _ => True) p) (hf : ∀ a, Cuts tail m l H (f a)) :
    Cuts tail n l H (p >>= f) :=
  .bind_of hp hf fun _ _ => trivial

/-- Two alternatives, the first of which does not come in where the text is cut off. -/
theorem Cuts.orElse_of (hp : Cuts tail n m G p) (hq : Cuts tail n m G q)
    (hother : ∀ {c : Cursor} {a : α} {d : Cursor}, (q (c.moved 0 tail)).result = some (a, d.moved 0 tail) →
      (q c).result = some (a, d) → G d → (p (c.moved 0 tail)).result = none → (p c).result = none) :
    Cuts tail n m G (p <|> q) where
  forward := .orElse hp.forward hq.forward
  reads hc hread := by
    rcases orElse_reads.mp hread with hread | ⟨hnone, hread⟩
    · obtain ⟨hshort, hcut⟩ := hp.reads hc hread
      exact ⟨hshort, fun hG => orElse_reads.mpr (.inl (hcut hG))⟩
    · obtain ⟨hshort, hcut⟩ := hq.reads hc hread
      exact ⟨hshort, fun hG => orElse_reads.mpr (.inr ⟨hother hread (hcut hG) hG hnone, hcut hG⟩)⟩

/-- What a text starts with, where the parser reads it, by a classification of texts. -/
def Starts (kind : List Char → κ) (ks : List κ) (p : Parse α) : Prop :=
  ∀ c r, (p c).result = some r → kind c.rest ∈ ks

theorem Starts.orElse {kind : List Char → κ} {ks ks' : List κ} (hp : Starts kind ks p) (hq : Starts kind ks' q) :
    Starts kind (ks ++ ks') (p <|> q) := by
  intro c r h
  rcases orElse_reads.mp h with h | ⟨-, h⟩
  · exact mem_append_left _ (hp c r h)
  · exact mem_append_right _ (hq c r h)

theorem Starts.bind {kind : List Char → κ} {ks : List κ} {f : α → Parse β} (hp : Starts kind ks p) :
    Starts kind ks (p >>= f) := by
  intro c r h
  obtain ⟨a, d, ha, -⟩ := bind_reads.mp h
  exact hp c (a, d) ha

/-- An alternative for texts that start in some of the ways of a classification. -/
structure Branch (tail : List Char) (n m : Nat) (G : Cursor → Prop) (kind : List Char → κ) (ks : List κ)
    (p : Parse α) : Prop where
  cuts : Cuts tail n m G p
  starts : Starts kind ks p

/-- Two alternatives for texts that start in different ways. -/
theorem Branch.orElse {kind : List Char → κ} {ks ks' : List κ} (hp : Branch tail n m G kind ks p)
    (hq : Branch tail n m G kind ks' q) (hdisjoint : ∀ k ∈ ks, k ∉ ks') :
    Branch tail n m G kind (ks ++ ks') (p <|> q) where
  starts := hp.starts.orElse hq.starts
  cuts := by
    refine .orElse_of hp.cuts hq.cuts fun {c a d} _ hread _ _ => ?_
    cases hother : (p c).result with
    | none => rfl
    | some r => exact absurd (hq.starts c _ hread) (hdisjoint _ (hp.starts c r hother))

/-! ## Tokens -/

/-- A parser whose values do not depend on places. -/
theorem Cuts.of_takes {f : α → α} (hforward : p.Forward) (hmirrors : Mirrors 0 [] n m p p f)
    (h : ∀ {c : Cursor} {a : α} {d : Cursor}, (p (c.moved 0 tail)).result = some (a, d.moved 0 tail) →
      p.Takes (· = a) c.rest d.rest) :
    Cuts tail n m G p where
  forward := hforward
  reads {c a d} hc hread := by
    have hcut := hforward.reads_of_takes (hforward.reaches hread).of_moved (h hread)
    exact ⟨(hmirrors c hc).2 a d hcut, fun _ => hcut⟩

theorem position_cuts : Cuts tail n n G position where
  forward := .position
  reads {c a d} hc hread := by
    obtain ⟨rfl, hd⟩ := position_reads.mp hread
    rw [← Cursor.moved_inj hd]
    exact ⟨hc, fun _ => rfl⟩

/-- A character that is read in front of `tail` is not one of `tail`, so it is still there without it. -/
theorem char_cuts (p : Char → Bool) (n : Nat) : Cuts tail (n + 1) n G (char p) := by
  refine .of_takes (.char p) (char_mirrors rfl n) fun {c x d} hread => ?_
  obtain ⟨hrest, hx⟩ := char_reads hread
  have hrest : c.rest = [x] ++ d.rest := rest_of_moved hrest
  rw [hrest]
  exact char_takes hx

/-- A row of characters that ended in front of `tail` ends at the same place without it. -/
theorem chars_cuts (p : Char → Bool) (n : Nat) : Cuts tail n n G (chars p) := by
  refine .of_takes (.chars p) (chars_mirrors rfl n) fun {c xs d} hread => ?_
  obtain ⟨hrest, hxs, hstop⟩ := chars_reads hread
  rw [rest_of_moved hrest]
  exact chars_takes hxs (headIs_of_moved hstop)

theorem chars1_cuts (p : Char → Bool) (n : Nat) : Cuts tail (n + 1) n G (chars1 p) :=
  .bind (char_cuts p n) fun _ => .bind (chars_cuts p n) fun _ => .pure _

end Parse

section
variable {G : Cursor → Prop}

theorem token_cuts {text : String} (htext : isInline text = true) (n : Nat) : Cuts tail (n + 1) n G (exact text) := by
  refine .of_takes (.exact text) (token_mirrors endsLine_nil htext n) fun {c u d} hread => ?_
  rw [rest_of_moved (exact_reads hread)]
  exact (exact_takes text d.rest).mono fun _ _ => rfl

theorem blanks_cuts (n : Nat) : Cuts tail n n G blanks :=
  .bind (chars_cuts isSpace n) fun _ => .pure _

theorem blanks1_cuts (n : Nat) : Cuts tail (n + 1) n G blanks1 :=
  .bind (chars1_cuts isSpace n) fun _ => .pure _

/-- No word goes on where the text is cut off. -/
theorem keyword_cuts {w : String} (hw : isInline w = true) (n : Nat) : Cuts tail (n + 1) n G (keyword w) := by
  refine .of_takes (keyword_forward w) (keyword_mirrors endsLine_nil hw n) fun {c u d} hread => ?_
  obtain ⟨hrest, hstop⟩ := keyword_stops hread
  rw [rest_of_moved hrest]
  exact (keyword_takes w (headIs_of_moved hstop)).mono fun _ _ => rfl

theorem name_cuts (n : Nat) : Cuts tail (n + 1) n G name := by
  refine .of_takes name_forward (name_mirrors endsLine_nil n) fun {c w d} hread => ?_
  obtain ⟨hw, hrest, hstop⟩ := name_reads hread
  rw [rest_of_moved hrest]
  exact name_takes hw (headIs_of_moved hstop)

theorem ident_cuts (source n : Nat) : Cuts tail (n + 1) n G (ident source) :=
  .bind position_cuts fun _ => .bind (name_cuts n) fun _ => .bind position_cuts fun _ => .pure _

theorem binaryOp_cuts (op : BinaryOp) (n : Nat) : Cuts tail (n + 1) n G (binaryOp op) := by
  have htext : isInline op.symbol = true := by cases op <;> rfl
  unfold binaryOp
  split
  · exact keyword_cuts htext n
  · exact token_cuts htext n

theorem unaryOp_cuts (op : UnaryOp) (n : Nat) : Cuts tail (n + 1) n G (unaryOp op) := by
  cases op with
  | neg => exact token_cuts rfl n
  | plus => exact token_cuts rfl n
  | not => exact keyword_cuts rfl n

theorem spanFrom_cuts {n : Nat} (source start : Nat) : Cuts tail n n G (spanFrom source start) :=
  .bind position_cuts fun _ => .pure _

/-! ## Paths and literals -/

variable {v : Literal}

/-- A point and a word are read where a word starts behind a point. -/
theorem pointedWord_eq_none (h : ((do exact "."; word : Parse String) c).result = none) :
    followsPoint isWordStart c.rest = false := by
  refine Bool.eq_false_iff.mpr fun hfollows => ?_
  obtain ⟨offset, rest⟩ := c
  unfold followsPoint at hfollows
  split at hfollows
  · rename_i x more hrest
    simp only at hrest
    subst hrest
    have htakes : (do exact "."; word : Parse String).Passes ('.' :: x :: more) (more.dropWhile isWordRest) :=
      .after (exact_takes "." _) fun _ => .after (char_takes hfollows).passes fun _ =>
        .after (chars_takes_all isWordRest more).passes fun _ => .pure trivial
    obtain ⟨_, _, hread, -⟩ := htakes offset
    rw [h] at hread
    cases hread
  · cases hfollows

theorem pointed_reads {limit : Nat} {ws : List String} (hlimit : c.rest.length < limit)
    (hstart : headIs isWordRest c.rest = false)
    (h : (manyWithin (do exact "."; word) limit c).result = some (ws, d)) :
    (∀ w ∈ ws, isWord w = true) ∧ c.rest = pointed ws ++ d.rest ∧ headIs isWordRest d.rest = false ∧
      followsPoint isWordStart d.rest = false := by
  induction limit generalizing c ws with
  | zero => exact absurd hlimit (Nat.not_lt_zero _)
  | succ limit ih =>
    rcases orElse_reads.mp h with h | ⟨hnone, h⟩
    · simp only [bind_reads, pure_reads] at h
      obtain ⟨w, c₂, ⟨_, c₁, hpoint, hw⟩, rest, c₃, hrest, rfl, rfl⟩ := h
      obtain ⟨hword, hc₁, hstop⟩ := word_reads hw
      have hc : c.rest = '.' :: (w.toList ++ c₂.rest) := by
        rw [exact_reads hpoint, hc₁]
        rfl
      have hshort : c₂.rest.length < limit := by
        have hlength := congrArg List.length hc
        simp only [length_cons, length_append] at hlength
        omega
      obtain ⟨hwords, hc₂, hend⟩ := ih hshort hstop hrest
      refine ⟨forall_mem_cons.mpr ⟨hword, hwords⟩, ?_, hend⟩
      rw [hc, hc₂]
      simp [pointed]
    · obtain ⟨rfl, rfl⟩ := pure_reads.mp h
      refine ⟨forall_mem_nil _, rfl, hstart, pointedWord_eq_none ?_⟩
      cases hread : ((do exact "."; word : Parse String) c).result with
      | none => rfl
      | some r =>
        obtain ⟨s, hs⟩ := manyWithin_total (do exact "."; word : Parse String) limit r.2
        rw [result_bind, hread, Option.bind_some, result_bind, hs] at hnone
        cases hnone

theorem path_reads {p : Path} (h : (path c).result = some (p, d)) :
    ∃ first rest, p = pathOf first rest ∧ isName first = true ∧ (∀ w ∈ rest, isWord w = true) ∧
      c.rest = first.toList ++ (pointed rest ++ d.rest) ∧ headIs isWordRest d.rest = false ∧
      followsPoint isWordStart d.rest = false := by
  simp only [path, bind_reads, pure_reads] at h
  obtain ⟨first, c₁, hfirst, rest, c₂, hrest, rfl, rfl⟩ := h
  obtain ⟨hname, hc, hstop⟩ := name_reads hfirst
  obtain ⟨hwords, hc₁, hend⟩ := pointed_reads (Nat.lt_succ_self _) hstop hrest
  exact ⟨first, rest, rfl, hname, hwords, by rw [hc, hc₁], hend⟩

/-- A path takes as many words as there are, and without `tail` there are no more of them. -/
theorem path_cuts (n : Nat) : Cuts tail (n + 1) n G path := by
  refine .of_takes path_forward (path_mirrors endsLine_nil n) fun {c p d} hread => ?_
  obtain ⟨first, rest, rfl, hname, hwords, hrest, hstop, hpoint⟩ := path_reads hread
  rw [← append_assoc] at hrest
  rw [rest_of_moved hrest, append_assoc]
  exact words_take hname hwords (headIs_of_moved hstop) (followsPoint_of_moved hpoint)

theorem chars1_stops {p : Char → Bool} {xs : List Char} (h : (chars1 p c).result = some (xs, d)) :
    headIs p d.rest = false := by
  simp only [chars1, bind_reads, pure_reads] at h
  obtain ⟨x, c₁, -, xs, c₂, hxs, rfl, rfl⟩ := h
  exact (chars_reads hxs).2.2

theorem integerLiteral_stops (h : (integerLiteral c).result = some (v, d)) : headIs isDigit d.rest = false := by
  rcases orElse_reads.mp h with h | ⟨-, h⟩
  · simp only [Parse.quiet, bind_reads] at h
    obtain ⟨digits, c₁, hdigits, h⟩ := h
    split at h
    · obtain ⟨-, rfl⟩ := pure_reads.mp h
      exact chars1_stops hdigits
    · cases h
  · cases h

theorem doubleLiteral_stops (h : (doubleLiteral c).result = some (v, d)) : headIs isDigit d.rest = false := by
  rcases orElse_reads.mp h with h | ⟨-, h⟩
  · simp only [Parse.quiet, bind_reads, pure_reads] at h
    obtain ⟨_, _, -, _, _, -, _, c₃, hrest, -, rfl⟩ := h
    exact chars1_stops hrest
  · cases h

/-- Digits with a point and a digit behind them are read as a number with a point. -/
theorem decimal_passes {digits : List Char} (hdigits : digits ≠ [] ∧ ∀ x ∈ digits, isDigit x = true)
    (h : followsPoint isDigit cs = true) : ∃ ds, doubleLiteral.Passes (digits ++ cs) ds := by
  unfold followsPoint at h
  split at h
  · rename_i x more
    have hrest : x :: more.takeWhile isDigit ≠ [] ∧ ∀ y ∈ x :: more.takeWhile isDigit, isDigit y = true :=
      ⟨cons_ne_nil _ _, forall_mem_cons.mpr ⟨h, all_eq_true.mp all_takeWhile⟩⟩
    have htakes := decimal_takes hdigits hrest (headIs_dropWhile isDigit more)
    rw [cons_append, takeWhile_append_dropWhile] at htakes
    exact ⟨_, htakes.passes⟩
  · cases h

/-- Reading up to a closing quote in front of `tail` has nothing to do with `tail`. -/
theorem readStringChars_cut {offset : Nat} {rest : List Char}
    (h : (readStringChars offset (cs ++ tail)).2.rest = '"' :: (rest ++ tail)) :
    (readStringChars offset cs).1 = (readStringChars offset (cs ++ tail)).1 ∧
      (readStringChars offset cs).2.rest = '"' :: rest := by
  fun_induction readStringChars offset cs with
  | case1 offset =>
    obtain ⟨ys, hys, -⟩ := readStringChars_reaches offset ([] ++ tail)
    have hlength := congrArg List.length (h ▸ hys)
    simp only [nil_append, length_append, length_cons] at hlength
    omega
  | case2 offset =>
    -- A backslash at the end would be read with the first character of `tail`, and the quote would be in `tail`.
    obtain ⟨ys, hys, -⟩ := readStringChars_reaches offset (['\\'] ++ tail)
    have hys := h ▸ hys
    cases ys with
    | nil => cases hys
    | cons y ys =>
      have hlength := congrArg List.length hys
      simp only [cons_append, nil_append, length_append, length_cons] at hlength
      omega
  | case3 offset c more x hescape xs cursor hread ih =>
    simp only [cons_append, readStringChars, hescape] at h ⊢
    rw [hread] at ih
    obtain ⟨hxs, hrest⟩ := ih h
    exact ⟨by rw [← hxs], hrest⟩
  | case4 offset c more hescape =>
    simp only [cons_append, readStringChars, hescape] at h
    cases h
  | case5 offset c more hlone hpair hend =>
    rw [cons_append, readStringChars_plain (ne_backslash hlone hpair), if_pos hend] at h ⊢
    injection h with hc hmore
    exact ⟨rfl, by rw [hc, append_cancel_right hmore]⟩
  | case6 offset c more hlone hpair hend xs cursor hread ih =>
    rw [cons_append, readStringChars_plain (ne_backslash hlone hpair), if_neg hend] at h ⊢
    rw [hread] at ih
    obtain ⟨hxs, hrest⟩ := ih h
    exact ⟨congrArg (c :: ·) hxs, hrest⟩

/-! Of each kind of literal: what is read in front of `tail` is taken from the text without it. -/

theorem stringLiteral_cut (h : (stringLiteral (c.moved 0 tail)).result = some (v, d.moved 0 tail)) :
    literal.Takes (· = v) c.rest d.rest := by
  obtain ⟨offset, cs, hrest, hclose, rfl⟩ := stringLiteral_reads h
  obtain ⟨start, rest⟩ := c
  cases rest with
  | nil =>
    obtain ⟨ys, hys, -⟩ := readStringChars_reaches offset cs
    have hlength := congrArg List.length (hclose ▸ hys)
    have hlength' := congrArg List.length hrest
    simp only [Cursor.moved, nil_append, length_append, length_cons] at hlength hlength'
    omega
  | cons x cs₀ =>
    injection hrest with hx hcs
    subst hx hcs
    obtain ⟨hchars, hquote⟩ := readStringChars_cut hclose
    have htakes := quoted_takes hquote []
    rwa [hchars, append_nil, append_nil] at htakes

theorem doubleLiteral_cut (h : (doubleLiteral (c.moved 0 tail)).result = some (v, d.moved 0 tail)) :
    literal.Takes (· = v) c.rest d.rest := by
  obtain ⟨whole, rest, hrest, hwhole, hdigits, rfl⟩ := doubleLiteral_reads h
  have hc : c.rest = whole ++ '.' :: rest ++ d.rest := by
    refine rest_of_moved (hrest.trans ?_)
    rw [append_assoc, cons_append]
  rw [hc, append_assoc, cons_append]
  exact .orElse (decimal_takes hwhole hdigits (headIs_of_moved (doubleLiteral_stops h)))

/-- Where no double was read the digits have no fraction behind them, and cutting the text off gives them none. -/
theorem integerLiteral_cut (hdouble : (doubleLiteral (c.moved 0 tail)).result = none)
    (h : (integerLiteral (c.moved 0 tail)).result = some (v, d.moved 0 tail)) :
    literal.Takes (· = v) c.rest d.rest := by
  obtain ⟨digits, hrest, hdigits, hlimit, rfl⟩ := integerLiteral_reads h
  have hpoint : followsPoint isDigit (d.moved 0 tail).rest = false := by
    refine Bool.eq_false_iff.mpr fun hfollows => ?_
    obtain ⟨ds, hpasses⟩ := decimal_passes hdigits hfollows
    rw [← hrest] at hpasses
    obtain ⟨_, _, hread, -⟩ := hpasses (c.moved 0 tail).offset
    have hread := hdouble.symm.trans hread
    cases hread
  rw [rest_of_moved hrest]
  exact digits_take hdigits.1 hdigits.2 hlimit (headIs_of_moved (integerLiteral_stops h)) (followsPoint_of_moved hpoint)

theorem booleanLiteral_cut (h : (booleanLiteral (c.moved 0 tail)).result = some (v, d.moved 0 tail)) :
    literal.Takes (· = v) c.rest d.rest := by
  rcases orElse_reads.mp h with h | ⟨-, h⟩
  all_goals
    simp only [bind_reads, pure_reads] at h
    obtain ⟨_, c₁, hword, rfl, rfl⟩ := h
    obtain ⟨hrest, hstop⟩ := keyword_stops hword
    rw [rest_of_moved hrest]
  · exact boolean_takes true (headIs_of_moved hstop)
  · exact boolean_takes false (headIs_of_moved hstop)

/-- **A literal is read alike in front of `tail` and without it.** -/
theorem literal_cuts (n : Nat) : Cuts tail (n + 1) n G literal := by
  refine .of_takes literal_forward (literal_mirrors endsLine_nil n) fun {c v d} hread => ?_
  rcases orElse_reads.mp hread with h | ⟨hdouble, h⟩
  · exact doubleLiteral_cut h
  rcases orElse_reads.mp h with h | ⟨-, h⟩
  · exact integerLiteral_cut hdouble h
  rcases orElse_reads.mp h with h | ⟨-, h⟩
  · exact stringLiteral_cut h
  · exact booleanLiteral_cut h

end

/-! ## Where an expression is over -/

variable {e : Cursor} {source : Nat}

/-- **What does not go on with an expression here in front of `tail` does not without `tail`.** -/
def Over (source : Nat) (tail : List Char) (d : Cursor) : Prop :=
  ∀ s : Sequel, (s.parse source (d.moved 0 tail)).result = none → (s.parse source d).result = none

/-- Nothing goes on at the end of the text. -/
theorem sequel_eq_none_of_end (h : d.rest = []) (s : Sequel) : (s.parse source d).result = none := by
  refine Sequel.refuses ?_ ?_ s d.offset
  · rw [h]
    exact ⟨rfl, by decide⟩
  · rw [h]
    exact atom_refuses rfl (by decide) rfl

theorem over_of_end (h : d.rest = []) : Over source tail d :=
  fun s _ => sequel_eq_none_of_end h s

/-- Where a keyword follows that ends a part of an expression, nothing goes on with it. -/
theorem over_of_keyword {α : Type} {w : String} {g : Unit → Unit → Parse α} {a : α} (hw : w ∈ ["then", "else", "in"])
    (h : ((blanks >>= fun u => keyword w >>= g u) d).result = some (a, e)) : Over source tail d := by
  intro s _
  obtain ⟨_, d₁, hblanks, h⟩ := bind_reads.mp h
  obtain ⟨_, d₂, hkeyword, -⟩ := bind_reads.mp h
  obtain ⟨hrest, hstop⟩ := keyword_stops hkeyword
  rw [blanks_reads hblanks] at hrest
  refine Sequel.refuses ?_ ?_ s d.offset
  · rw [hrest]
    exact inert_keyword hw hstop
  · rw [hrest]
    exact atom_refuses_keyword hw hstop

theorem over_of_parenthesis {α : Type} {g : Unit → Unit → Parse α} {a : α}
    (h : ((blanks >>= fun u => exact ")" >>= g u) d).result = some (a, e)) : Over source tail d := by
  intro s _
  obtain ⟨_, d₁, hblanks, h⟩ := bind_reads.mp h
  obtain ⟨_, d₂, hclose, -⟩ := bind_reads.mp h
  have hrest : d.rest.dropWhile isSpace = ')' :: d₂.rest := by
    rw [← blanks_reads hblanks, exact_reads hclose]
    rfl
  have hlead : lead (')' :: d₂.rest) = "" := rfl
  refine Sequel.refuses ?_ ?_ s d.offset
  · rw [hrest]
    exact .of_char rfl rfl _
  · rw [hrest]
    exact atom_refuses rfl (by rw [hlead]; decide) rfl

/-- Where a sequel is read with and without `tail`, no other one is. -/
theorem over_of_sequel {s : Sequel} {r r' : Expr × Cursor} (hs : (s.parse source d).result = some r)
    (hs' : (s.parse source (d.moved 0 tail)).result = some r') : Over source tail d := by
  intro t hnone
  cases ht : (t.parse source d).result with
  | none => rfl
  | some q =>
    obtain rfl := Sequel.unique ht hs
    rw [hs'] at hnone
    cases hnone

/-! ## Atoms -/

/-- How an atom can start. -/
inductive AtomStart
  | name
  | condition
  | binding
  | parenthesis
  | literal
deriving DecidableEq

/-- How an atom starts, if one starts here. -/
def atomStart (cs : List Char) : AtomStart :=
  if isName (lead cs) then .name
  else if lead cs = "if" then .condition
  else if lead cs = "let" then .binding
  else if headIs (· == '(') cs then .parenthesis
  else .literal

section
variable {expr : Nat → Parse Expr} (start : Nat)

theorem lambda_starts : Starts atomStart [.name] (lambda source expr start) := by
  refine .bind fun c r h => ?_
  obtain ⟨hname, hrest, hstop⟩ := ident_reads h
  rw [hrest, atomStart, lead_append (isWord_of_isName hname) hstop, if_pos hname]
  exact mem_singleton_self _

theorem conditional_starts : Starts atomStart [.condition] (conditional source expr start) := by
  refine .bind fun c r h => ?_
  rw [atomStart, lead_of_keyword (by decide) h, if_neg (by decide), if_pos rfl]
  exact mem_singleton_self _

theorem binding_starts : Starts atomStart [.binding] (binding source expr start) := by
  refine .bind fun c r h => ?_
  rw [atomStart, lead_of_keyword (by decide) h, if_neg (by decide), if_neg (by decide), if_pos rfl]
  exact mem_singleton_self _

theorem literal_starts : Starts atomStart [.literal] literal := by
  intro c r h
  obtain ⟨hname, hword, -⟩ := lead_of_literal (not_refuses h)
  have hparenthesis : headIs (· == '(') c.rest = false := by
    refine Bool.eq_false_iff.mpr fun hhead => not_refuses h ?_
    cases hrest : c.rest with
    | nil =>
      rw [hrest] at hhead
      cases hhead
    | cons x rest =>
      rw [hrest] at hhead
      obtain rfl : x = '(' := beq_iff_eq.mp hhead
      have hlead : lead ('(' :: rest) = "" := rfl
      exact literal_refuses rfl (by rw [hlead]; decide) (by rw [hlead]; decide)
  simp only [mem_cons, not_mem_nil, or_false, not_or] at hword
  simp [atomStart, hname, hword.1, hword.2.1, hparenthesis]

theorem path_starts : Starts atomStart [.name] path := by
  refine .bind fun c r h => ?_
  obtain ⟨hname, hrest, hstop⟩ := name_reads h
  rw [hrest, atomStart, lead_append (isWord_of_isName hname) hstop, if_pos hname]
  exact mem_singleton_self _

theorem parenthesized_starts : Starts atomStart [.parenthesis] (parenthesized source expr start) := by
  refine .bind fun c r h => ?_
  rw [exact_reads h]
  exact mem_singleton_self _

end

/-! ## Expressions -/

variable {least : Nat} {x : Expr}

section
variable {n start : Nat} (hexpr : ∀ least, Cuts tail n n (Over source tail) (exprAbove source least))
include hexpr

omit hexpr in
/-- What is read with its range is over where it is over without it. -/
theorem Parse.Cuts.spanned {α β : Type} {n m : Nat} {p : Parse α} {G : Cursor → Prop} (hp : Cuts tail n m G p)
    (source start : Nat) (g : α → Span → β) :
    Cuts tail n m G (do let a ← p; let s ← spanFrom source start; return g a s) := by
  refine .bind_of hp (fun a => .bind (spanFrom_cuts source start) fun s => .pure _) fun {a b d e} hread hG => ?_
  simp only [bind_reads, spanFrom_reads, pure_reads] at hread
  obtain ⟨_, _, ⟨-, rfl⟩, -, rfl⟩ := hread
  exact hG

theorem lambda_cuts (start : Nat) : Cuts tail (n + 1) n (Over source tail) (lambda source (exprAbove source) start) :=
  .bind (ident_cuts source n) fun x => .bind (blanks_cuts n) fun _ => .bind (.relax (token_cuts rfl) n) fun _ =>
    .bind (blanks_cuts n) fun _ => (hexpr 0).spanned source start fun b s => Expr.lambda s x b

theorem conditional_cuts (start : Nat) :
    Cuts tail (n + 1) n (Over source tail) (conditional source (exprAbove source) start) :=
  .bind (keyword_cuts rfl n) fun _ => .bind (blanks_cuts n) fun _ =>
    .bind_of (hexpr 0)
      (fun p => .bind (blanks_cuts n) fun _ => .bind (.relax (keyword_cuts rfl) n) fun _ =>
        .bind (blanks_cuts n) fun _ => .bind_of (hexpr 0)
          (fun a => .bind (blanks_cuts n) fun _ => .bind (.relax (keyword_cuts rfl) n) fun _ =>
            .bind (blanks_cuts n) fun _ => (hexpr 0).spanned source start fun b s => Expr.conditional s p a b)
          fun hread _ => over_of_keyword (by decide) hread)
      fun hread _ => over_of_keyword (by decide) hread

theorem binding_cuts (start : Nat) : Cuts tail (n + 1) n (Over source tail) (binding source (exprAbove source) start) :=
  .bind (keyword_cuts rfl n) fun _ => .bind (blanks_cuts n) fun _ => .bind (.relax (ident_cuts source) n) fun x =>
    .bind (blanks_cuts n) fun _ => .bind (.relax (token_cuts rfl) n) fun _ => .bind (blanks_cuts n) fun _ =>
    .bind_of (hexpr 0)
      (fun v => .bind (blanks_cuts n) fun _ => .bind (.relax (keyword_cuts rfl) n) fun _ =>
        .bind (blanks_cuts n) fun _ => (hexpr 0).spanned source start fun b s => Expr.binding s x v b)
      fun hread _ => over_of_keyword (by decide) hread

theorem parenthesized_cuts (start : Nat) :
    Cuts tail (n + 1) n (Over source tail) (parenthesized source (exprAbove source) start) :=
  .bind (token_cuts rfl n) fun _ => .bind (blanks_cuts n) fun _ =>
    .bind_of (hexpr 0)
      (fun _ => .bind (blanks_cuts n) fun _ => .bind (.relax (token_cuts rfl) n) fun _ =>
        .bind (spanFrom_cuts source start) fun _ => .pure _)
      fun hread _ => over_of_parenthesis hread

omit hexpr in
/-- A parameter in front of its arrow is read alike with more text behind the arrow. -/
theorem ident_moved {x : Ident} (h : (ident source c).result = some (x, d)) (hd : d.rest ≠ []) (tail : List Char) :
    (ident source (c.moved 0 tail)).result = some (x, d.moved 0 tail) := by
  simp only [ident, bind_reads, pure_reads, position_reads] at h ⊢
  obtain ⟨_, _, ⟨rfl, rfl⟩, n, c₁, hn, _, _, ⟨rfl, rfl⟩, rfl, rfl⟩ := h
  obtain ⟨hname, hrest, hstop⟩ := name_reads hn
  have hreaches : (c.moved 0 tail).Reaches (c₁.moved 0 tail) := by
    obtain ⟨xs, hxs, hoffset⟩ := name_forward.reaches hn
    refine ⟨xs, ?_, hoffset⟩
    simp only [Cursor.moved]
    rw [hxs, append_assoc]
  have htakes : name.Takes (· = n) (c.moved 0 tail).rest (c₁.moved 0 tail).rest := by
    have hstop' : headIs isWordRest (c₁.rest ++ tail) = false := by
      cases hc₁ : c₁.rest with
      | nil => exact absurd hc₁ hd
      | cons y ys =>
        rw [hc₁] at hstop
        exact hstop
    simp only [Cursor.moved]
    rw [hrest, append_assoc]
    exact name_takes hname hstop'
  exact ⟨_, _, ⟨rfl, rfl⟩, n, _, name_forward.reads_of_takes hreaches htakes, _, _, ⟨rfl, rfl⟩, rfl, rfl⟩

omit hexpr in
/-- Words that are read as a path and as a parameter are one word. -/
theorem path_eq_ident {p : Path} {x : Ident} {d₁ : Cursor} (hpath : (path c).result = some (p, d))
    (hident : (ident source c).result = some (x, d₁)) (hpoint : headIs (· == '.') d₁.rest = false) : d = d₁ := by
  simp only [ident, bind_reads, pure_reads, position_reads] at hident
  obtain ⟨_, _, ⟨rfl, rfl⟩, w, c₁, hw, _, _, ⟨rfl, rfl⟩, -, rfl⟩ := hident
  simp only [path, bind_reads, pure_reads] at hpath
  obtain ⟨first, c₂, hfirst, rest, c₃, hrest, -, rfl⟩ := hpath
  rw [hw] at hfirst
  cases hfirst
  have hrefuses : (do exact "."; word : Parse String).Refuses c₁.rest := by
    refine .bind (exact_refuses ?_)
    rintro ⟨more, hmore⟩
    rw [← hmore] at hpoint
    cases hpoint
  obtain ⟨-, hsame⟩ := (hrefuses.manyWithin _).of_reads hrest
  have hreaches := (Forward.many (.bind (.exact ".") fun _ => word_forward)).reaches hrest
  exact (hreaches.eq_of_rest hsame.symm).symm

omit hexpr in
/-- A function is a parameter with an arrow behind it. -/
theorem lambda_reads_iff {f : Expr} : (lambda source (exprAbove source) start c).result = some (f, d) ↔
      ∃ x c₁ b, (ident source c).result = some (x, c₁) ∧ (Sequel.arrow.parse source c₁).result = some (b, d) ∧
        f = .lambda ⟨source, start, d.offset⟩ x b := by
  simp only [lambda, Sequel.parse, bind_reads, spanFrom_reads, pure_reads]
  constructor
  · rintro ⟨x, c₁, hx, _, c₂, h₂, _, c₃, h₃, _, c₄, h₄, b, c₅, hb, _, _, ⟨rfl, rfl⟩, rfl, rfl⟩
    exact ⟨x, c₁, b, hx, ⟨_, c₂, h₂, _, c₃, h₃, _, c₄, h₄, hb⟩, rfl⟩
  · rintro ⟨x, c₁, b, hx, ⟨_, c₂, h₂, _, c₃, h₃, _, c₄, h₄, hb⟩, rfl⟩
    exact ⟨x, c₁, hx, _, c₂, h₂, _, c₃, h₃, _, c₄, h₄, b, d, hb, _, _, ⟨rfl, rfl⟩, rfl, rfl⟩

omit hexpr in
/-- **A path is not taken for a parameter where the text is cut off**, if nothing goes on there: a function would be
    the path with an arrow behind it. -/
theorem lambda_eq_none {p : Path} (hpath : (path c).result = some (p, d)) (hover : Over source tail d)
    (hnone : (lambda source (exprAbove source) start (c.moved 0 tail)).result = none) :
    (lambda source (exprAbove source) start c).result = none := by
  cases hread : (lambda source (exprAbove source) start c).result with
  | none => rfl
  | some r =>
    exfalso
    obtain ⟨f, e⟩ := r
    obtain ⟨x, c₁, b, hx, harrow, -⟩ := lambda_reads_iff.mp hread
    obtain ⟨more, hc₁, -⟩ := Sequel.sign_reads (by decide) harrow
    have hne : c₁.rest ≠ [] ∧ headIs (· == '.') c₁.rest = false := by
      cases hrest : c₁.rest with
      | nil =>
        rw [hrest] at hc₁
        cases hc₁
      | cons y ys =>
        refine ⟨cons_ne_nil _ _, beq_eq_false_iff_ne.mpr ?_⟩
        rintro rfl
        rw [hrest] at hc₁
        cases hc₁
    obtain rfl := path_eq_ident hpath hx hne.2
    cases harrow' : (Sequel.arrow.parse source (d.moved 0 tail)).result with
    | none =>
      rw [hover _ harrow'] at harrow
      cases harrow
    | some q =>
      obtain ⟨b', e'⟩ := q
      have hread : (lambda source (exprAbove source) start (c.moved 0 tail)).result = some (_, e') :=
        lambda_reads_iff.mpr ⟨x, _, b', ident_moved hx hne.1 tail, harrow', rfl⟩
      rw [hnone] at hread
      cases hread

omit hexpr in
theorem name_reads_path {a : Expr}
    (h : ((do let p ← path; return Expr.name (← spanFrom source start) p : Parse Expr) c).result = some (a, d)) :
    ∃ p, (path c).result = some (p, d) := by
  simp only [bind_reads, spanFrom_reads, pure_reads] at h
  obtain ⟨p, c₁, hp, _, _, ⟨-, rfl⟩, -, rfl⟩ := h
  exact ⟨p, hp⟩

/-- **An atom is read alike in front of `tail` and without it**, if nothing goes on where it stops. Only functions
    and names start in the same way. -/
theorem atom_cuts : Cuts tail (n + 1) n (Over source tail) (atom source (exprAbove source)) := by
  refine .bind position_cuts fun start => ?_
  have hconditional : Branch tail (n + 1) n (Over source tail) atomStart [.condition]
      (conditional source (exprAbove source) start) := ⟨conditional_cuts hexpr start, conditional_starts start⟩
  have hbinding : Branch tail (n + 1) n (Over source tail) atomStart [.binding]
      (binding source (exprAbove source) start) := ⟨binding_cuts hexpr start, binding_starts start⟩
  have hliteral : Branch tail (n + 1) n (Over source tail) atomStart [.literal]
      (do let v ← literal; return Expr.literal (← spanFrom source start) v) :=
    ⟨(literal_cuts n).spanned source start fun v s => Expr.literal s v, literal_starts.bind⟩
  have hpath : Branch tail (n + 1) n (Over source tail) atomStart [.name]
      (do let p ← path; return Expr.name (← spanFrom source start) p) :=
    ⟨(path_cuts n).spanned source start fun p s => Expr.name s p, path_starts.bind⟩
  have hparenthesized : Branch tail (n + 1) n (Over source tail) atomStart [.parenthesis]
      (parenthesized source (exprAbove source) start) := ⟨parenthesized_cuts hexpr start, parenthesized_starts start⟩
  have hnames := hpath.orElse hparenthesized (by decide)
  have hothers := hconditional.orElse (hbinding.orElse (hliteral.orElse hnames (by decide)) (by decide)) (by decide)
  -- Functions start like names, so they need an argument of their own.
  refine .orElse_of (lambda_cuts hexpr start) hothers.cuts fun {c a d} _ hread hover hnone => ?_
  cases hlambda : (lambda source (exprAbove source) start c).result with
  | none => rfl
  | some r =>
    have hstart : ∀ {k}, atomStart c.rest ∈ [k] → .name = k := fun h =>
      (mem_singleton.mp (lambda_starts start c r hlambda)).symm.trans (mem_singleton.mp h)
    rcases orElse_reads.mp hread with h | ⟨-, h⟩
    · cases hstart (conditional_starts start c _ h)
    rcases orElse_reads.mp h with h | ⟨-, h⟩
    · cases hstart (binding_starts start c _ h)
    rcases orElse_reads.mp h with h | ⟨-, h⟩
    · cases hstart (hliteral.starts c _ h)
    rcases orElse_reads.mp h with h | ⟨-, h⟩
    · obtain ⟨p, hp⟩ := name_reads_path h
      rw [lambda_eq_none hp hover hnone] at hlambda
      cases hlambda
    · cases hstart (parenthesized_starts start c _ h)

/-! ## Operands and their extensions -/

variable {left : Expr}

/-- The prefix operator that an operand starts with, if it does. -/
def operandStart (cs : List Char) : Option UnaryOp :=
  if headIs (· == '-') cs then some .neg
  else if headIs (· == '+') cs then some .plus
  else if lead cs = "not" then some .not
  else none

theorem prefixed_cuts (start : Nat) (op : UnaryOp) :
    Cuts tail (n + 1) n (Over source tail) (prefixed source (exprAbove source) start op) :=
  .bind (unaryOp_cuts op n) fun _ => .bind (blanks_cuts n) fun _ =>
    (hexpr prefixLevel).spanned source start fun x s => Expr.unary s op x

omit hexpr in
theorem prefixed_starts (start : Nat) (op : UnaryOp) :
    Starts operandStart [some op] (prefixed source (exprAbove source) start op) := by
  refine .bind fun c r h => ?_
  cases op with
  | neg =>
    rw [exact_reads h]
    exact mem_singleton_self _
  | plus =>
    rw [exact_reads h]
    exact mem_singleton_self _
  | not =>
    obtain ⟨hrest, hstop⟩ := keyword_stops h
    rw [hrest, operandStart, lead_append (by decide) hstop]
    exact mem_singleton_self _

omit hexpr in
theorem atom_starts : Starts operandStart [none] (atom source (exprAbove source)) := by
  intro c r h
  obtain ⟨hhead, hword⟩ := atom_inert h
  have hsign : headIs (· == '-') c.rest = false ∧ headIs (· == '+') c.rest = false := by
    cases hrest : c.rest with
    | nil => exact ⟨rfl, rfl⟩
    | cons x rest =>
      rw [hrest] at hhead
      have hx : separators.contains x = false := hhead
      constructor <;>
      · refine beq_eq_false_iff_ne.mpr ?_
        rintro rfl
        cases hx
  simp only [mem_cons, not_mem_nil, or_false, not_or] at hword
  simp [operandStart, hsign.1, hsign.2, hword.2.2]

theorem operand_cuts (start : Nat) :
    Cuts tail (n + 1) n (Over source tail) (operand source (exprAbove source) start) := by
  have hprefixed : ∀ op, Branch tail (n + 1) n (Over source tail) operandStart [some op]
      (prefixed source (exprAbove source) start op) :=
    fun op => ⟨prefixed_cuts hexpr start op, prefixed_starts start op⟩
  have hatom : Branch tail (n + 1) n (Over source tail) operandStart [none] (atom source (exprAbove source)) :=
    ⟨atom_cuts hexpr, atom_starts⟩
  have hnot := (hprefixed .not).orElse hatom (by decide)
  exact ((hprefixed .neg).orElse ((hprefixed .plus).orElse hnot (by decide)) (by decide)).cuts

theorem sequel_cuts (s : Sequel) : Cuts tail (n + 1) n (Over source tail) (s.parse source) := by
  cases s with
  | arrow =>
    exact .bind (blanks_cuts (n + 1)) fun _ => .bind (token_cuts rfl n) fun _ => .bind (blanks_cuts n) fun _ =>
      hexpr 0
  | operator op =>
    exact .bind (blanks_cuts (n + 1)) fun _ => .bind (binaryOp_cuts op n) fun _ => .bind (blanks_cuts n) fun _ =>
      hexpr (op.level + 1)
  | argument => exact .bind (.relax blanks1_cuts (n + 1)) fun _ => atom_cuts hexpr

/-- An extension that was made in front of `tail` is made without it, and the place before it is one where nothing
    else would go on. -/
theorem extension_cut (hc : c.rest.length < n + 1) (hover : Over source tail d)
    (h : (extension source (exprAbove source) least start left (c.moved 0 tail)).result = some (x, d.moved 0 tail)) :
    (extension source (exprAbove source) least start left c).result = some (x, d) ∧ Over source tail c := by
  obtain ⟨s, r, hbinds, hr, rfl⟩ := extension_reads_iff.mp h
  have hr' := ((sequel_cuts hexpr s).reads hc hr).2 hover
  exact ⟨extension_reads_iff.mpr ⟨s, r, hbinds, hr', rfl⟩, over_of_sequel hr' hr⟩

omit hexpr in
theorem exprAbove_forward (source least : Nat) : (exprAbove source least).Forward where
  reaches h := (exprWithin_forward source _ least).reaches h
  report c := (exprWithin_forward source _ least).report c

omit hexpr in
theorem Extends.reaches (h : Extends source least start left c x d) : c.Reaches d := by
  induction h with
  | done => exact .refl _
  | more hfirst _ ih =>
    exact ((extension_forward (exprAbove_forward source) least start _).reaches hfirst).trans ih

/-- **Extensions are read from the text that is cut off behind them**: behind each of them the next one is read with
    and without `tail`, and behind the last one nothing goes on. -/
theorem Extends.cut {c₀ d₀ : Cursor} (h : Extends source least start left c₀ x d₀) (hc₀ : c₀ = c.moved 0 tail)
    (hd₀ : d₀ = d.moved 0 tail) (hc : c.rest.length < n + 1) (hover : Over source tail d) :
    Extends source least start left c x d ∧ Over source tail c := by
  induction h generalizing c with
  | done =>
    obtain rfl := Cursor.moved_inj (hc₀.symm.trans hd₀)
    exact ⟨.done, hover⟩
  | more hfirst hmore ih =>
    subst hc₀ hd₀
    obtain ⟨c₁, rfl, -⟩ := hmore.reaches.eq_moved
    have hshort : c₁.rest.length < n + 1 := by
      obtain ⟨xs, hxs, -⟩ := ((extension_forward (exprAbove_forward source) least start _).reaches hfirst).of_moved
      have hlength := congrArg List.length hxs
      rw [length_append] at hlength
      omega
    obtain ⟨hextends, hover₁⟩ := ih rfl rfl hshort
    obtain ⟨hfirst', hover'⟩ := extension_cut hexpr hc hover₁ hfirst
    exact ⟨.more hfirst' hextends, hover'⟩

theorem spine_cut (hc : c.rest.length < n + 1) (h : Spine source least (c.moved 0 tail) x (d.moved 0 tail)) :
    d.rest.length < n ∧ (Over source tail d → Spine source least c x d) := by
  obtain ⟨left, c₀, hoperand, hextends⟩ := h
  obtain ⟨c₁, rfl, hreaches⟩ := hextends.reaches.eq_moved
  obtain ⟨hshort, hcut⟩ := (operand_cuts hexpr c.offset).reads hc hoperand
  constructor
  · obtain ⟨xs, hxs, -⟩ := hreaches
    have hlength := congrArg List.length hxs
    rw [length_append] at hlength
    omega
  · intro hover
    obtain ⟨hextends', hover₁⟩ := hextends.cut hexpr rfl rfl (Nat.lt_succ_of_lt hshort) hover
    exact ⟨left, c₁, hcut hover₁, hextends'⟩

/-- **One level of nesting**: an expression is read from the text that is cut off behind it, if those inside it are. -/
theorem exprAbove_cuts_step (least : Nat) : Cuts tail (n + 1) n (Over source tail) (exprAbove source least) where
  forward := exprAbove_forward source least
  reads hc hread := by
    obtain ⟨hspine, hend⟩ := exprAbove_reads_iff.mp hread
    obtain ⟨hshort, hcut⟩ := spine_cut hexpr hc hspine
    refine ⟨hshort, fun hover => exprAbove_reads_iff.mpr ⟨hcut hover, ?_⟩⟩
    exact extension_eq_none.mpr fun s hbinds => hover s (extension_eq_none.mp hend s hbinds)

end

/-- **An expression is read from the text that is cut off where it is over.** -/
theorem exprAbove_cuts (source : Nat) (tail : List Char) (n least : Nat) :
    Cuts tail n n (Over source tail) (exprAbove source least) := by
  induction n generalizing least with
  | zero => exact ⟨exprAbove_forward source least, fun hc => absurd hc (Nat.not_lt_zero _)⟩
  | succ n ih => exact (exprAbove_cuts_step ih least).mono (Nat.le_refl _) (Nat.le_succ n)

/-- **An operand with some extensions, cut out of its text, is the whole expression there.** -/
theorem exprAbove_of_spine {xs : List Char} (h : Spine source least c x d) (hrest : c.rest = xs ++ d.rest) :
    (exprAbove source 0 ⟨c.offset, xs⟩).result = some (x, ⟨d.offset, []⟩) := by
  have hcut : Spine source least ⟨c.offset, xs⟩ x ⟨d.offset, []⟩ := by
    refine (spine_cut (fun least => exprAbove_cuts source d.rest xs.length least) (Nat.lt_succ_self _) ?_).2
      (over_of_end rfl)
    have hc : (⟨c.offset, xs⟩ : Cursor).moved 0 d.rest = c := by
      simp only [Cursor.moved, Nat.add_zero]
      rw [← hrest]
    rw [hc]
    exact h
  obtain ⟨left, c₁, hoperand, hextends⟩ := hcut
  refine exprAbove_reads_iff.mpr ⟨⟨left, c₁, hoperand, hextends.mono (Nat.zero_le _)⟩, ?_⟩
  exact extension_eq_none.mpr fun s _ => sequel_eq_none_of_end rfl s

end Grammar
end UnionTyping
