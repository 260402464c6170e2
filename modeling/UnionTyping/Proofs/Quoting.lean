import UnionTyping.Proofs.LineByLine
import UnionTyping.Proofs.Lookahead

/-!
# `Proofs.Quoting` — which texts are read back from between quotes

A text is printed between quotes character by character, and read character by character up to the closing quote. The
two sides know different spellings. The reader takes almost every character as it is and knows five escapes, so every
text can be written (`spelled_spells`). The printer also writes `\0` and code points, and the reader knows neither: it
stops at them in front of the closing quote (`escaped_breaks`).

So a printed text is read back exactly if all its characters are such as the printer shows as they are, or by one of
the five escapes (`quoted_reads_back_iff`).
-/

namespace UnionTyping

open List Text

namespace Text

/-- Whether the character is printed as itself or by an escape that has a letter or a sign. -/
def isLegible (c : Char) : Bool :=
  ['\t', '\r', '\n', '\\', '"'].contains c || (!extendsGrapheme c && isPrintable c)

/-- A spelling that is understood, for every character. -/
def spelled (c : Char) : String :=
  match c with
  | '\r' => "\\r"
  | '\n' => "\\n"
  | '\\' => "\\\\"
  | '"' => "\\\""
  | c => String.singleton c

end Text

namespace Grammar

open Parse

/-! ## Spellings of characters -/

variable {c : Char}

/-- **The text is read as the character**, whatever follows it. -/
def Spells (w : List Char) (c : Char) : Prop :=
  ∀ offset rest, ∃ next, readStringChars offset (w ++ rest) =
    (c :: (readStringChars next rest).1, (readStringChars next rest).2)

/-- Reading stops at this text, whatever follows it: a backslash and a character that is no escape. -/
def Breaks (w : List Char) : Prop :=
  ∃ x more, w = '\\' :: x :: more ∧ unescape? x = none

theorem spells_escape {x : Char} (h : unescape? x = some c) : Spells ['\\', x] c := by
  intro offset rest
  exact ⟨offset + 2, by simp [readStringChars, h]⟩

theorem spells_self (hslash : c ≠ '\\') (hquote : c ≠ '"') (hline : isLineEnd c = false) : Spells [c] c := by
  intro offset rest
  refine ⟨offset + c.utf8Size, ?_⟩
  have hend : ¬ ((c == '"' || isLineEnd c) = true) := by simp [hquote, hline]
  rw [singleton_append, readStringChars_plain hslash, if_neg hend]

theorem Breaks.stops {w : List Char} (h : Breaks w) (offset : Nat) (cs : List Char) :
    (readStringChars offset (w ++ cs)).2.rest = w ++ cs := by
  obtain ⟨x, more, rfl, hx⟩ := h
  simp [readStringChars, hx]

theorem spelled_spells (c : Char) : Spells (spelled c).toList c := by
  unfold spelled
  split
  · exact spells_escape rfl
  · exact spells_escape rfl
  · exact spells_escape rfl
  · exact spells_escape rfl
  · rename_i hreturn hfeed hslash hquote
    rw [String.toList_singleton]
    exact spells_self hslash hquote (by simpa [isLineEnd] using ⟨hreturn, hfeed⟩)

theorem isLegible_other (htab : c ≠ '\t') (hreturn : c ≠ '\r') (hfeed : c ≠ '\n') (hslash : c ≠ '\\')
    (hquote : c ≠ '"') : isLegible c = (!extendsGrapheme c && isPrintable c) := by
  simp [isLegible, htab, hreturn, hfeed, hslash, hquote]

/-- **What is printed for a legible character is understood.** -/
theorem escaped_spells (h : isLegible c = true) : Spells (escaped c).toList c := by
  unfold escaped
  split
  · cases h
  · exact spells_escape rfl
  · exact spells_escape rfl
  · exact spells_escape rfl
  · exact spells_escape rfl
  · exact spells_escape rfl
  · rename_i _ htab hreturn hfeed hslash hquote
    rw [isLegible_other htab hreturn hfeed hslash hquote] at h
    rw [if_pos h, String.toList_singleton]
    exact spells_self hslash hquote (by simpa [isLineEnd] using ⟨hreturn, hfeed⟩)

/-- **What is printed for any other character is not understood.** -/
theorem escaped_breaks (h : isLegible c = false) : Breaks (escaped c).toList := by
  unfold escaped
  split
  · exact ⟨'0', [], rfl, rfl⟩
  · cases h
  · cases h
  · cases h
  · cases h
  · cases h
  · rename_i _ htab hreturn hfeed hslash hquote
    rw [isLegible_other htab hreturn hfeed hslash hquote] at h
    rw [if_neg (Bool.eq_false_iff.mp h), codePoint, String.append_assoc, String.toList_append]
    exact ⟨'u', _, rfl, rfl⟩

/-! ## Texts between quotes -/

/-- Where each character is spelled so that it is understood, the text is read up to the closing quote. -/
theorem readStringChars_spelled {cs : List Char} {f : Char → String} (h : ∀ c ∈ cs, Spells (f c).toList c)
    (offset : Nat) (rest : List Char) :
    ∃ stop, readStringChars offset (cs.flatMap (fun c => (f c).toList) ++ '"' :: rest) = (cs, ⟨stop, '"' :: rest⟩) := by
  induction cs generalizing offset with
  | nil => exact ⟨offset, rfl⟩
  | cons c cs ih =>
    obtain ⟨hc, hcs⟩ := forall_mem_cons.mp h
    obtain ⟨next, hnext⟩ := hc offset (cs.flatMap (fun c => (f c).toList) ++ '"' :: rest)
    obtain ⟨stop, hstop⟩ := ih hcs next
    rw [hstop] at hnext
    exact ⟨stop, by rw [flatMap_cons, append_assoc, hnext]⟩

/-- A printed text with a character that is not legible is read up to this character only. -/
theorem readStringChars_breaks {cs : List Char} (h : cs.all isLegible = false) (offset : Nat) (rest : List Char) :
    ∃ left, (readStringChars offset (cs.flatMap (fun c => (escaped c).toList) ++ rest)).2.rest = '\\' :: left := by
  induction cs generalizing offset with
  | nil => cases h
  | cons c cs ih =>
    rw [flatMap_cons, append_assoc]
    cases hc : isLegible c with
    | true =>
      rw [all_cons, hc, Bool.true_and] at h
      obtain ⟨next, hnext⟩ := escaped_spells hc offset (cs.flatMap (fun c => (escaped c).toList) ++ rest)
      rw [hnext]
      exact ih h next
    | false =>
      have hbreaks := escaped_breaks hc
      rw [hbreaks.stops]
      obtain ⟨x, more, hw, -⟩ := hbreaks
      rw [hw]
      exact ⟨_, rfl⟩

theorem toList_quoted (f : Char → String) (s : String) :
    ("\"" ++ String.join (s.toList.map f) ++ "\"").toList =
      '"' :: (s.toList.flatMap (fun c => (f c).toList) ++ ['"']) := by
  simp [String.toList_join, flatMap_map]

/-- Whatever the spelling, the text is read from between quotes. -/
theorem literal_run_spelled {f : Char → String} {s : String} (h : ∀ c ∈ s.toList, Spells (f c).toList c) :
    literal.run ("\"" ++ String.join (s.toList.map f) ++ "\"") = .ok (.string s) := by
  obtain ⟨stop, hread⟩ := readStringChars_spelled h 0 []
  have htakes := quoted_takes (congrArg (fun r => r.2.rest) hread) []
  rw [hread, append_nil, ← toList_quoted, String.ofList_toList] at htakes
  obtain ⟨_, hrun, rfl⟩ := htakes.run
  exact hrun

theorem stringLiteral_refuses_quoted {s : String} (h : s.toList.all isLegible = false) :
    stringLiteral.Refuses ('"' :: (s.toList.flatMap (fun c => (escaped c).toList) ++ ['"'])) := by
  intro offset
  cases hread : (stringLiteral ⟨offset, _⟩).result with
  | none => rfl
  | some r =>
    obtain ⟨start, body, hbody, hclose, -⟩ := stringLiteral_reads hread
    obtain ⟨left, hleft⟩ := readStringChars_breaks h start ['"']
    injection hbody with _ hbody
    rw [← hbody, hleft] at hclose
    cases hclose

/-- A printed text with a character that is not legible starts no atom, since no other atom starts with a quote. -/
theorem atom_refuses_quoted {source : Nat} {expr : Nat → Parse Expr} {s : String}
    (h : s.toList.all isLegible = false) : (atom source expr).Refuses (quoted s).toList := by
  rw [quoted, toList_quoted]
  have hword : ∀ {w cs}, isWord w = true → lead ('"' :: cs) ≠ w := by
    rintro _ cs hw rfl
    cases hw
  have hliteral : literal.Refuses ('"' :: (s.toList.flatMap (fun c => (escaped c).toList) ++ ['"'])) := by
    refine .orElse (doubleLiteral_refuses rfl) (.orElse (integerLiteral_refuses rfl) ?_)
    refine .orElse (stringLiteral_refuses_quoted h) (.orElse (.bind ?_) (.bind ?_))
    · exact keyword_refuses (by decide) (hword (by decide))
    · exact keyword_refuses (by decide) (hword (by decide))
  refine .after position_passes fun start _ => .orElse (lambda_refuses rfl start) ?_
  refine .orElse (conditional_refuses (hword (by decide)) start) ?_
  refine .orElse (binding_refuses (hword (by decide)) start) (.orElse (.bind hliteral) ?_)
  exact .orElse (.bind (path_refuses rfl)) (parenthesized_refuses rfl start)

/-- What is read as a literal is also read as an expression. -/
theorem parseExpr_literal (source : Nat) {text : String} {v : Literal} (hv : literal.run text = .ok v) :
    ∃ span, parseExpr source text = .ok (.literal span v) := by
  have hinert : Inert (text.toList ++ []) := inert_literal hv rfl
  have hexpr : (expr source).Takes (fun e => e.bare = (Expr.literal .nowhere v).bare) (text.toList ++ []) [] :=
    fun offset => exprWithin_atom hinert .nothing (atom_literal .nowhere hv Closes.nothing.apart) 0 offset
  have htakes : (expression source).Takes (fun e => e.bare = (Expr.literal .nowhere v).bare)
      (text.toList ++ []) [] := by
    refine .after (blanks_none hinert.space) fun _ => .bind hexpr fun e he => ?_
    exact .after (blanks_none rfl) fun _ => .after (comment_refuses rfl).optional.passes fun _ => .pure he
  rw [append_nil] at htakes
  obtain ⟨e, hrun, he⟩ := htakes.run
  cases e with
  | literal span w =>
    simp only [Expr.bare, Expr.literal.injEq, true_and] at he
    exact ⟨span, he ▸ hrun⟩
  | _ => cases he

/-- A printed text that is read has legible characters only. -/
theorem legible_of_parseExpr_quoted {source : Nat} {s : String} {e : Expr}
    (h : parseExpr source (quoted s) = .ok e) : s.toList.all isLegible = true := by
  refine Bool.not_eq_false _ ▸ fun hnot => ?_
  obtain ⟨stop, hread⟩ := run_ok_iff.mp h
  simp only [expression, bind_reads, expr_eq] at hread
  obtain ⟨_, c₁, hblanks, e, c₂, hexpr, -⟩ := hread
  have hhead : Inert (quoted s).toList := by
    rw [quoted, toList_quoted]
    exact .of_char rfl rfl _
  have hrest : c₁.rest = (quoted s).toList := by
    rw [blanks_reads hblanks]
    exact dropWhile_stop hhead.space
  obtain ⟨⟨left, c₃, hoperand, -⟩, -⟩ := exprAbove_reads_iff.mp hexpr
  refine not_refuses hoperand ?_
  rw [hrest]
  exact hhead.operand_refuses (atom_refuses_quoted hnot) _

end Grammar

open Grammar

/-- **Every text can be written between quotes; it is read back as it is printed exactly if all its characters are
    legible.** Otherwise its printed form is not read at all: the printer writes `\0` and code points, which the reader
    does not know. -/
theorem quoted_reads_back_iff (source : Nat) (s : String) :
    (∃ text span, parseExpr source text = .ok (.literal span (.string s))) ∧
    ((∃ span, parseExpr source (Literal.string s).text = .ok (.literal span (.string s))) ↔
      s.toList.all Text.isLegible = true) ∧
    ((∃ e, parseExpr source (Literal.string s).text = .ok e) ↔ s.toList.all Text.isLegible = true) := by
  have hback : s.toList.all Text.isLegible = true →
      ∃ span, parseExpr source (Literal.string s).text = .ok (.literal span (.string s)) := by
    intro h
    exact parseExpr_literal source (literal_run_spelled fun c hc => escaped_spells (List.all_eq_true.mp h c hc))
  refine ⟨⟨_, parseExpr_literal source (literal_run_spelled fun c _ => spelled_spells c)⟩, ⟨?_, hback⟩, ⟨?_, ?_⟩⟩
  · rintro ⟨span, h⟩
    exact legible_of_parseExpr_quoted h
  · rintro ⟨e, h⟩
    exact legible_of_parseExpr_quoted h
  · intro h
    obtain ⟨span, hread⟩ := hback h
    exact ⟨_, hread⟩

/-- An accent that stands for itself between quotes is printed as its code point, which is not read. -/
theorem accent_not_read_back :
    parseExpr 0 "\"e\u0301\"" = .ok (.literal ⟨0, 0, 5⟩ (.string "e\u0301")) ∧
    (Literal.string "e\u0301").text = "\"e\\u\x7b301\x7d\"" ∧
    (parseExpr 0 (Literal.string "e\u0301").text).toOption = none := by
  decide +kernel

end UnionTyping
