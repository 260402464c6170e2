import UnionTyping.Proofs.Excision
import UnionTyping.Proofs.Lexical

/-!
# `Proofs.Faithful` — every part of an expression stands where its range says

Every part of an expression that was read is an operand with some extensions (`Spine`) between two places of the text,
be it the left side of an operator, which was read on the way, or the right side, which was read on its own
(`Spine.occurs_at`). Its range reaches from the one place to the other. So
* the ranges of its own parts follow one another inside it (`Derives.located`);
* cut out of the text it is read as the same expression (`exprAbove_of_spine`), and moved to the start of a text with
  all ranges that much smaller (`exprAbove_mirrors`).
-/

namespace UnionTyping

open List

/-! ## Ranges inside one another -/

/-- The range is one of the other's file and inside it. -/
structure Span.Within (s t : Span) : Prop where
  source : s.source = t.source
  start : t.start ≤ s.start
  ordered : s.start ≤ s.stop
  stop : s.stop ≤ t.stop

namespace Span.Within

variable {s t : Span}

theorem self (h : s.Within t) : s.Within s :=
  ⟨rfl, Nat.le_refl _, h.ordered, Nat.le_refl _⟩

/-- A range that has another one inside is inside itself. -/
theorem around (h : s.Within t) : t.Within t :=
  ⟨rfl, Nat.le_refl _, Nat.le_trans (Nat.le_trans h.start h.ordered) h.stop, Nat.le_refl _⟩

theorem trans {u : Span} (h : s.Within t) (h' : t.Within u) : s.Within u :=
  ⟨h.source.trans h'.source, Nat.le_trans h'.start h.start, h.ordered, Nat.le_trans h.stop h'.stop⟩

end Span.Within

/-! ## Ranges of parts -/

namespace Expr

/-- The range of the name that a function or a local binding introduces. -/
def binderSpan? : Expr → Option Span
  | .lambda _ x _ => some x.span
  | .binding _ x _ _ => some x.span
  | _ => none

/-- The ranges of the immediate parts: of the name that is introduced, if there is one, and of the children. -/
def parts (e : Expr) : List Span :=
  e.binderSpan?.toList ++ e.children.map span

theorem children_withSpan (s : Span) (e : Expr) : (e.withSpan s).children = e.children := by
  cases e <;> rfl

theorem parts_withSpan (s : Span) (e : Expr) : (e.withSpan s).parts = e.parts := by
  cases e <;> rfl

theorem span_withSpan (s : Span) (e : Expr) : (e.withSpan s).span = s := by
  cases e <;> rfl

end Expr

namespace Grammar

open Parse
open Source (byteLength)

variable {source : Nat} {c c₁ d d₁ : Cursor} {e : Expr}

/-- Where something was read, the offset is greater. -/
theorem Cursor.Reaches.lt (h : c.Reaches d) (hshort : d.rest.length < c.rest.length) : c.offset < d.offset := by
  obtain ⟨xs, hxs, hoffset⟩ := h
  cases xs with
  | nil =>
    rw [hxs] at hshort
    exact absurd hshort (Nat.lt_irrefl _)
  | cons x xs =>
    have hsize : byteLength (x :: xs) = x.utf8Size + byteLength xs := rfl
    have hpos := x.utf8Size_pos
    omega

theorem Parse.Mirrors.advances {α : Type} {p : Parse α} {f : α → α} (hp : p.Forward)
    (h : ∀ n, Mirrors 0 [] (n + 1) n p p f) {a : α} (hread : (p c).result = some (a, d)) : c.offset < d.offset :=
  (hp.reaches hread).lt ((h c.rest.length c (Nat.lt_succ_self _)).2 a d hread)

/-- The range between two places of a source. -/
def Cursor.range (source : Nat) (c d : Cursor) : Span :=
  ⟨source, c.offset, d.offset⟩

theorem Cursor.Reaches.range_within (h : c.Reaches c₁) (h₁ : c₁.Reaches d₁) (h' : d₁.Reaches d) :
    (Cursor.range source c₁ d₁).Within (Cursor.range source c d) :=
  ⟨rfl, h.le, h₁.le, h'.le⟩

theorem ident_span {x : Ident} (h : (ident source c).result = some (x, d)) : x.span = Cursor.range source c d := by
  simp only [ident, bind_reads, pure_reads, position_reads] at h
  obtain ⟨_, _, ⟨rfl, rfl⟩, n, c₁, -, _, _, ⟨rfl, rfl⟩, rfl, rfl⟩ := h
  rfl

/-- **The ranges follow one another between two places**, and none of them is empty. -/
inductive Successive (source : Nat) : Cursor → List Span → Cursor → Prop
  | nil {c d : Cursor} : c.Reaches d → Successive source c [] d
  | cons {c c₁ d₁ d : Cursor} {ss : List Span} : c.Reaches c₁ → c₁.Reaches d₁ → c₁.offset < d₁.offset →
      Successive source d₁ ss d → Successive source c (Cursor.range source c₁ d₁ :: ss) d

namespace Successive

variable {ss : List Span}

theorem reaches (h : Successive source c ss d) : c.Reaches d := by
  induction h with
  | nil h => exact h
  | cons h₁ h₂ _ _ ih => exact h₁.trans (h₂.trans ih)

theorem widen (h : Successive source c₁ ss d₁) (hc : c.Reaches c₁) (hd : d₁.Reaches d) : Successive source c ss d := by
  induction h generalizing c with
  | nil h => exact .nil (hc.trans (h.trans hd))
  | cons h₁ h₂ h₃ _ ih => exact .cons (hc.trans h₁) h₂ h₃ (ih (.refl _) hd)

/-- A name that was read, and more behind it. -/
theorem ident {x : Ident} (hc : c.Reaches c₁) (hx : (Grammar.ident source c₁).result = some (x, d₁))
    (h : Successive source d₁ ss d) : Successive source c (x.span :: ss) d := by
  rw [ident_span hx]
  have hadvances := Mirrors.advances (ident_forward source) (ident_mirrors endsLine_nil source) hx
  exact .cons hc ((ident_forward source).reaches hx) hadvances h

theorem within (h : Successive source c ss d) : ∀ s ∈ ss, s.Within (Cursor.range source c d) ∧ s.start < s.stop := by
  induction h with
  | nil => exact forall_mem_nil _
  | cons h₁ h₂ h₃ h₄ ih =>
    refine forall_mem_cons.mpr ⟨⟨h₁.range_within h₂ h₄.reaches, h₃⟩, fun s hs => ?_⟩
    obtain ⟨hwithin, hne⟩ := ih s hs
    exact ⟨hwithin.trans ((h₁.trans h₂).range_within h₄.reaches (.refl _)), hne⟩

theorem pairwise (h : Successive source c ss d) : ss.Pairwise fun s t => s.stop ≤ t.start := by
  induction h with
  | nil => exact .nil
  | cons _ _ _ h₄ ih => exact .cons (fun s hs => (h₄.within s hs).1.start) ih

theorem advances {s : Span} (h : Successive source c (s :: ss) d) : c.offset < d.offset := by
  cases h with
  | cons h₁ _ h₃ h₄ => exact Nat.lt_of_lt_of_le (Nat.lt_of_le_of_lt h₁.le h₃) h₄.reaches.le

end Successive

/-- **The expression lies between two places**: its range reaches from the one to the other, it is not empty, and its
    parts follow one another in it. -/
structure Located (source : Nat) (c : Cursor) (e : Expr) (d : Cursor) : Prop where
  span : e.span = Cursor.range source c d
  advances : c.offset < d.offset
  parts : Successive source c e.parts d

namespace Located

theorem within (h : Located source c e d) : ∀ s ∈ e.parts, s.Within e.span :=
  fun s hs => h.span ▸ (h.parts.within s hs).1

theorem span_within (h : Located source c₁ e d₁) (hc : c.Reaches c₁) (hd : d₁.Reaches d) :
    e.span.Within (Cursor.range source c d) :=
  h.span ▸ hc.range_within h.parts.reaches hd

theorem compound {s : Span} {ss : List Span} (hspan : e.span = Cursor.range source c d) (hparts : e.parts = s :: ss)
    (h : Successive source c (s :: ss) d) : Located source c e d :=
  ⟨hspan, h.advances, hparts ▸ h⟩

end Located

/-- An expression that was read, and more behind it. -/
theorem Successive.expr {ss : List Span} (hc : c.Reaches c₁) (he : Located source c₁ e d₁)
    (h : Successive source d₁ ss d) : Successive source c (e.span :: ss) d := by
  rw [he.span]
  exact .cons hc he.parts.reaches he.advances h

section
variable {R : Cursor → Expr → Cursor → Prop}

theorem Form.located (hR : ∀ {c e d}, R c e d → Located source c e d) (h : Form source R c e d) :
    Located source c e d := by
  cases h with
  | literal h =>
    exact ⟨rfl, Mirrors.advances literal_forward (literal_mirrors endsLine_nil) h, .nil (literal_forward.reaches h)⟩
  | name h => exact ⟨rfl, Mirrors.advances path_forward (path_mirrors endsLine_nil) h, .nil (path_forward.reaches h)⟩
  | lambda hx h₁ hb => exact .compound rfl rfl (.ident (.refl _) hx (.expr h₁ (hR hb) (.nil (.refl _))))
  | conditional h₁ hp h₂ ha h₃ hb =>
    exact .compound rfl rfl (.expr h₁ (hR hp) (.expr h₂ (hR ha) (.expr h₃ (hR hb) (.nil (.refl _)))))
  | binding h₁ hx h₂ hv h₃ hb =>
    exact .compound rfl rfl (.ident h₁ hx (.expr h₂ (hR hv) (.expr h₃ (hR hb) (.nil (.refl _)))))
  | parenthesized h₁ _ he h₂ =>
    have he := hR he
    refine ⟨Expr.span_withSpan _ _, Nat.lt_of_lt_of_le (Nat.lt_of_le_of_lt h₁.le he.advances) h₂.le, ?_⟩
    rw [Expr.parts_withSpan]
    exact he.parts.widen h₁ h₂
  | unary h₁ hx => exact .compound rfl rfl (.expr h₁ (hR hx) (.nil (.refl _)))
  | binary hl h₁ hr => exact .compound rfl rfl (.expr (.refl _) (hR hl) (.expr h₁ (hR hr) (.nil (.refl _))))
  | apply hf h₁ ha => exact .compound rfl rfl (.expr (.refl _) (hR hf) (.expr h₁ (hR ha) (.nil (.refl _))))

/-- The children of an expression stand in it. In parentheses they are those of the expression inside. -/
theorem Form.children_cases (hR : ∀ {c e d}, R c e d → c.Reaches d) (h : Form source R c e d) :
    (∀ child ∈ e.children, ∃ c₁ d₁, c.Reaches c₁ ∧ R c₁ child d₁ ∧ d₁.Reaches d) ∨
      ∃ x c₁ d₁, e.children = x.children ∧ c₁.rest.length < c.rest.length ∧ c.Reaches c₁ ∧ R c₁ x d₁ ∧
        d₁.Reaches d := by
  cases h with
  | literal => exact .inl (forall_mem_nil _)
  | name => exact .inl (forall_mem_nil _)
  | lambda hx h₁ hb =>
    exact .inl (forall_mem_singleton.mpr ⟨_, _, ((ident_forward source).reaches hx).trans h₁, hb, .refl _⟩)
  | conditional h₁ hp h₂ ha h₃ hb =>
    have hfirst := h₁.trans ((hR hp).trans h₂)
    have hlast := h₃.trans (hR hb)
    refine .inl (forall_mem_cons.mpr ⟨?_, forall_mem_cons.mpr ⟨?_, forall_mem_singleton.mpr ?_⟩⟩)
    · exact ⟨_, _, h₁, hp, h₂.trans ((hR ha).trans hlast)⟩
    · exact ⟨_, _, hfirst, ha, hlast⟩
    · exact ⟨_, _, hfirst.trans ((hR ha).trans h₃), hb, .refl _⟩
  | binding h₁ hx h₂ hv h₃ hb =>
    have hfirst := h₁.trans (((ident_forward source).reaches hx).trans h₂)
    refine .inl (forall_mem_cons.mpr ⟨⟨_, _, hfirst, hv, h₃.trans (hR hb)⟩, forall_mem_singleton.mpr ?_⟩)
    exact ⟨_, _, hfirst.trans ((hR hv).trans h₃), hb, .refl _⟩
  | parenthesized h₁ hshort he h₂ => exact .inr ⟨_, _, _, Expr.children_withSpan _ _, hshort, h₁, he, h₂⟩
  | unary h₁ hx => exact .inl (forall_mem_singleton.mpr ⟨_, _, h₁, hx, .refl _⟩)
  | binary hl h₁ hr =>
    refine .inl (forall_mem_cons.mpr ⟨⟨_, _, .refl _, hl, h₁.trans (hR hr)⟩, forall_mem_singleton.mpr ?_⟩)
    exact ⟨_, _, (hR hl).trans h₁, hr, .refl _⟩
  | apply hf h₁ ha =>
    refine .inl (forall_mem_cons.mpr ⟨⟨_, _, .refl _, hf, h₁.trans (hR ha)⟩, forall_mem_singleton.mpr ?_⟩)
    exact ⟨_, _, (hR hf).trans h₁, ha, .refl _⟩

end

/-- **An expression has the range that it was read from**, and its parts follow one another in it. -/
theorem Derives.located (h : Derives source c e d) : Located source c e d := by
  induction h with
  | of_form _ h ih => exact h.located ih

theorem Derives.reaches (h : Derives source c e d) : c.Reaches d :=
  h.located.parts.reaches

/-! ## Places of parts -/

variable {least : Nat} {x : Expr}

theorem Spine.of_operand (h : (operand source (exprAbove source) c.offset c).result = some (e, d)) :
    Spine source least c e d :=
  ⟨e, d, h, .done⟩

/-- An atom is an operand, since it does not start with a prefix operator. -/
theorem Spine.of_atom (h : (atom source (exprAbove source) c).result = some (e, d)) : Spine source least c e d := by
  have hprefixed : ∀ op, (prefixed source (exprAbove source) c.offset op c).result = none := fun op =>
    (Refuses.bind ((atom_inert h).unaryOp_refuses op)) c.offset
  refine .of_operand (orElse_reads.mpr (.inr ⟨hprefixed _, orElse_reads.mpr (.inr ⟨hprefixed _, ?_⟩)⟩))
  exact orElse_reads.mpr (.inr ⟨hprefixed _, h⟩)

theorem Spine.of_exprAbove (h : (exprAbove source least c).result = some (e, d)) : Spine source 0 c e d := by
  obtain ⟨⟨left, c₁, hoperand, hextends⟩, -⟩ := exprAbove_reads_iff.mp h
  exact ⟨left, c₁, hoperand, hextends.mono (Nat.zero_le _)⟩

theorem Extends.eq_or_last {start : Nat} {left : Expr} (h : Extends source least start left c e d) :
    e = left ∧ d = c ∨ ∃ mid c₁, Extends source least start left c mid c₁ ∧
      (extension source (exprAbove source) least start mid c₁).result = some (e, d) := by
  induction h with
  | done => exact .inl ⟨rfl, rfl⟩
  | more hfirst _ ih =>
    right
    rcases ih with ⟨rfl, rfl⟩ | ⟨mid, c₁, hextends, hlast⟩
    · exact ⟨_, _, .done, hfirst⟩
    · exact ⟨mid, c₁, .more hfirst hextends, hlast⟩

/-- **The expression is read on the way between two places**, perhaps with more behind it. -/
def Occurs (source : Nat) (c : Cursor) (x : Expr) (d : Cursor) : Prop :=
  ∃ c₁ d₁, c.Reaches c₁ ∧ d₁.Reaches d ∧ Spine source 0 c₁ x d₁

theorem Occurs.widen (h : Occurs source c₁ x d₁) (hc : c.Reaches c₁) (hd : d₁.Reaches d) : Occurs source c x d := by
  obtain ⟨c₂, d₂, hc₂, hd₂, hspine⟩ := h
  exact ⟨c₂, d₂, hc.trans hc₂, hd₂.trans hd, hspine⟩

theorem Spine.derives (h : Spine source least c e d) : Derives source c e d := by
  have hexpr : ∀ {least c e d}, (exprAbove source least c).result = some (e, d) → Derives source c e d :=
    fun h => exprWithin_derives h
  obtain ⟨left, c₁, hoperand, hextends⟩ := h
  have hleft : Derives source c left c₁ := operand_derives hexpr hoperand
  clear hoperand
  induction hextends with
  | done => exact hleft
  | more hfirst _ ih => exact ih (extension_derives hexpr hleft hfirst)

/-- What is read by an operand and its extensions has a form, in which there are operands with extensions again. -/
theorem Spine.form (h : Spine source least c e d) : Form source (Spine source 0) c e d := by
  obtain ⟨left, c₁, hoperand, hextends⟩ := h
  rcases hextends.eq_or_last with ⟨rfl, rfl⟩ | ⟨mid, c₂, hmid, hlast⟩
  · exact operand_form .of_exprAbove hoperand
  · exact extension_form .of_exprAbove .of_atom ⟨left, c₁, hoperand, hmid.mono (Nat.zero_le _)⟩ hlast

/-- **The children of an expression occur in it.** The induction is on the text, for parentheses only: all other forms
    hand over to the expressions inside them. -/
theorem Spine.occurs (h : Spine source least c e d) : ∀ child ∈ e.children, Occurs source c child d := by
  induction hlength : c.rest.length using Nat.strongRecOn generalizing least c e d with
  | ind n ih =>
    subst hlength
    rcases h.form.children_cases fun h => h.derives.reaches with hchildren | ⟨x, c₁, d₁, hsame, hshort, hc, hx, hd⟩
    · intro child hchild
      obtain ⟨c₁, d₁, hc, hspine, hd⟩ := hchildren child hchild
      exact ⟨c₁, d₁, hc, hd, hspine⟩
    · intro child hchild
      exact (ih _ hshort hx rfl child (hsame ▸ hchild)).widen hc hd

/-- **Every part of an expression occurs in it.** -/
theorem Spine.occurs_at (h : Spine source 0 c e d) (position : List Nat) (hx : e.at? position = some x) :
    Occurs source c x d := by
  induction position generalizing e c d with
  | nil =>
    cases hx
    exact ⟨c, d, .refl c, .refl d, h⟩
  | cons i position ih =>
    obtain ⟨child, hchild, hx⟩ := Option.bind_eq_some_iff.mp hx
    obtain ⟨c₁, d₁, hc, hd, hspine⟩ := h.occurs child (mem_of_getElem? hchild)
    exact (ih hspine hx).widen hc hd

/-! ## Reading a slice -/

/-- **A part of an expression is read from its slice of the text**, with all ranges moved to the start. -/
theorem parseExpr_of_spine {xs : List Char} (h : Spine source 0 c x d) (hrest : c.rest = xs ++ d.rest) :
    ∃ y, parseExpr source (String.ofList xs) = .ok y ∧ y.shift c.offset = x := by
  have hslice := exprAbove_of_spine h hrest
  have hmoved := (exprAbove_mirrors (k := c.offset) source endsLine_nil (xs.length + 1) 0 ⟨0, xs⟩
    (Nat.lt_succ_self _)).1
  simp only [Cursor.moved, Nat.zero_add, append_nil] at hmoved
  rw [hslice] at hmoved
  obtain ⟨⟨y, d₁⟩, hread, hy⟩ := Option.map_eq_some_iff.mp hmoved.symm
  obtain ⟨hshift, hd₁⟩ := Prod.mk.inj hy
  obtain ⟨stop, left⟩ := d₁
  obtain rfl : left = [] := congrArg Cursor.rest hd₁
  refine ⟨y, run_ok_iff.mpr ⟨stop, ?_⟩, hshift⟩
  have hspace : headIs isSpace xs = false := by
    refine headIs_of_disjoint (fun z hz => Bool.eq_false_iff.mpr fun hspace => ?_) (exprAbove_opens hread)
    simp only [isSpace, Bool.or_eq_true, beq_iff_eq] at hspace
    rcases hspace with rfl | rfl <;> cases hz
  have hblanks : (blanks ⟨0, xs⟩).result = some ((), ⟨0, xs⟩) :=
    blanks_forward.reads_of_takes (.refl _) ((blanks_none hspace).mono fun _ _ => rfl)
  simp only [expression, bind_reads, pure_reads, expr_eq, Cursor.start, String.toList_ofList]
  exact ⟨_, _, hblanks, y, _, hread, _, _, rfl, _, _, rfl, rfl, rfl⟩

end Grammar

/-- **The range of a part of an expression is faithful**: it covers a slice of the text, of whole characters and at
    least one, that is read as the same part with all ranges moved to the start; and the ranges of its own parts follow
    one another inside it. -/
structure Faithful (source : Nat) (text : String) (x : Expr) : Prop where
  slice : ∃ before slice after : String, text = before ++ slice ++ after ∧
    x.span = ⟨source, before.utf8ByteSize, before.utf8ByteSize + slice.utf8ByteSize⟩ ∧ x.span.start < x.span.stop ∧
    ∃ y, parseExpr source slice = .ok y ∧ y.shift x.span.start = x
  parts : ∀ s ∈ x.parts, s.Within x.span ∧ s.start < s.stop
  ordered : x.parts.Pairwise fun s t => s.stop ≤ t.start

namespace Grammar

open Parse

variable {source : Nat} {c d : Cursor}

theorem Occurs.faithful {x : Expr} {text : String} (hstart : (Cursor.start text).Reaches c)
    (h : Occurs source c x d) :
    Faithful source text x := by
  obtain ⟨c₁, d₁, hc₁, -, hspine⟩ := h
  obtain ⟨before, hbefore, hoffset⟩ := hstart.trans hc₁
  have hderives := hspine.derives
  obtain ⟨slice, hslice, hstop⟩ := hderives.reaches
  obtain ⟨hspan, hadvances, hsuccessive⟩ := hderives.located
  constructor
  · refine ⟨String.ofList before, String.ofList slice, String.ofList d₁.rest, ?_, ?_, ?_, ?_⟩
    · rw [← String.ofList_append, ← String.ofList_append, append_assoc, ← hslice, ← hbefore]
      exact String.ofList_toList.symm
    · rw [hspan, Source.utf8ByteSize_ofList, Source.utf8ByteSize_ofList, Cursor.range, hstop, hoffset]
      simp [Cursor.start]
    · rw [hspan]
      exact hadvances
    · rw [hspan]
      exact parseExpr_of_spine hspine hslice
  · rw [hspan]
    exact hsuccessive.within
  · exact hsuccessive.pairwise

/-! ## Declarations -/

/-- What is repeated is read on the way. -/
theorem manyWithin_reads_each {α : Type} {p : Parse α} (hp : p.Forward) {limit : Nat} {as : List α}
    (h : (p.manyWithin limit c).result = some (as, d)) :
    ∀ a ∈ as, ∃ c₁ d₁, c.Reaches c₁ ∧ (p c₁).result = some (a, d₁) := by
  induction limit generalizing c as with
  | zero =>
    obtain ⟨rfl, -⟩ := pure_reads.mp h
    exact forall_mem_nil _
  | succ limit ih =>
    rcases orElse_reads.mp h with h | ⟨-, h⟩
    · simp only [bind_reads, pure_reads] at h
      obtain ⟨a, c₁, ha, rest, c₂, hrest, rfl, rfl⟩ := h
      refine forall_mem_cons.mpr ⟨⟨c, c₁, .refl c, ha⟩, fun b hb => ?_⟩
      obtain ⟨c₃, d₃, hc₃, hread⟩ := ih hrest b hb
      exact ⟨c₃, d₃, (hp.reaches ha).trans hc₃, hread⟩
    · obtain ⟨rfl, -⟩ := pure_reads.mp h
      exact forall_mem_nil _

theorem line_reads_decl {x : Decl} (h : (line source c).result = some (some x, d)) :
    ∃ c₁ d₁, c.Reaches c₁ ∧ (decl source c₁).result = some (x, d₁) := by
  simp only [line, bind_reads, pure_reads] at h
  obtain ⟨_, c₁, h₁, o, c₂, ho, _, c₃, -, _, c₄, -, rfl, -⟩ := h
  rcases orElse_reads.mp ho with h | ⟨-, h⟩
  · obtain ⟨y, c₅, hy, h⟩ := bind_reads.mp h
    obtain ⟨hx, -⟩ := pure_reads.mp h
    cases hx
    exact ⟨c₁, c₅, blanks_forward.reaches h₁, hy⟩
  · obtain ⟨hx, -⟩ := pure_reads.mp h
    cases hx

/-- Every declaration of a module is read somewhere in its text. -/
theorem lines_reads_decl {ds : List Decl} (h : (lines source c).result = some (ds, d)) :
    ∀ x ∈ ds, ∃ c₁ d₁, c.Reaches c₁ ∧ (decl source c₁).result = some (x, d₁) := by
  simp only [lines, bind_reads, pure_reads] at h
  obtain ⟨first, c₁, hfirst, rest, c₂, hrest, rfl, -⟩ := h
  intro x hx
  obtain ⟨o, ho, hox⟩ := mem_filterMap.mp hx
  have hox : o = some x := hox
  subst hox
  rcases mem_cons.mp ho with rfl | ho
  · exact line_reads_decl hfirst
  · have hforward : (do lineEnd; line source : Parse (Option Decl)).Forward :=
      .bind lineEnd_forward fun _ => line_forward source
    obtain ⟨c₃, d₃, hc₃, hread⟩ := manyWithin_reads_each hforward hrest _ ho
    obtain ⟨_, c₄, hend, hline⟩ := bind_reads.mp hread
    obtain ⟨c₅, d₅, hc₅, hdecl⟩ := line_reads_decl hline
    have hlines := ((line_forward source).reaches hfirst).trans (hc₃.trans (lineEnd_forward.reaches hend))
    exact ⟨c₅, d₅, hlines.trans hc₅, hdecl⟩

end Grammar

open Grammar Grammar.Parse

/-- **The ranges of expressions are faithful**, of every part of an expression that was read on its own, and of every
    part of the body of every declaration of a module. -/
theorem ranges_are_faithful :
    (∀ source text e, parseExpr source text = .ok e →
      ∀ position x, e.at? position = some x → Faithful source text x) ∧
    ∀ source home text p, parseProgram source home text = .ok p → ∀ d ∈ p.decls,
      ∀ position x, d.body.at? position = some x → Faithful source text x := by
  constructor
  · intro source text e h position x hx
    obtain ⟨stop, hread⟩ := run_ok_iff.mp h
    simp only [expression, bind_reads, pure_reads, expr_eq] at hread
    obtain ⟨_, c₁, hblanks, e, c₂, hexpr, _, _, -, _, _, -, rfl, -⟩ := hread
    exact ((Spine.of_exprAbove hexpr).occurs_at position hx).faithful (blanks_forward.reaches hblanks)
  · intro source home text p h d hd position x hx
    obtain ⟨ds, ⟨stop, hread⟩, rfl⟩ := parseProgram_ok_iff.mp h
    obtain ⟨c₁, d₁, hc₁, hdecl⟩ := lines_reads_decl hread d hd
    obtain ⟨c₂, c₃, hname, hgap, hbody, -⟩ := decl_reads hdecl
    have hstart := hc₁.trans (((ident_forward source).reaches hname).trans hgap)
    exact ((Spine.of_exprAbove hbody).occurs_at position hx).faithful hstart

/-- Parentheses belong to a range, and a letter of two bytes stands in front. -/
theorem ranges_are_faithful_parenthesized :
    let text := "(\"é\") + f (let x = -1 in x)"
    let inner := Expr.binding ⟨0, 11, 28⟩ ⟨"x", ⟨0, 16, 17⟩⟩
      (.unary ⟨0, 20, 22⟩ .neg (.literal ⟨0, 21, 22⟩ (.integer 1))) (.name ⟨0, 26, 27⟩ ⟨none, "x"⟩)
    let e := Expr.binary ⟨0, 0, 28⟩ .add (.literal ⟨0, 0, 6⟩ (.string "é"))
      (.apply ⟨0, 9, 28⟩ (.name ⟨0, 9, 10⟩ ⟨none, "f"⟩) inner)
    let lines := "# é\nk = x -> (y -> x)"
    let constant := Expr.lambda ⟨0, 14, 22⟩ ⟨"y", ⟨0, 15, 16⟩⟩ (.name ⟨0, 20, 21⟩ ⟨none, "x"⟩)
    let decl : Decl := ⟨⟨"k", ⟨0, 5, 6⟩⟩, .lambda ⟨0, 9, 22⟩ ⟨"x", ⟨0, 9, 10⟩⟩ constant, ⟨0, 5, 22⟩⟩
    (parseExpr 0 text = .ok e ∧ e.at? [1, 1] = some inner ∧ Faithful 0 text inner) ∧
    parseProgram 0 "main" lines = .ok ⟨"main", [decl]⟩ ∧ decl.body.at? [0] = some constant ∧
      Faithful 0 lines constant := by
  intro text inner e lines constant decl
  have hexpr : parseExpr 0 text = .ok e := by decide +kernel
  have hmodule : parseProgram 0 "main" lines = .ok ⟨"main", [decl]⟩ := by decide +kernel
  refine ⟨⟨hexpr, rfl, ranges_are_faithful.1 0 text e hexpr [1, 1] inner rfl⟩, hmodule, rfl, ?_⟩
  exact ranges_are_faithful.2 0 "main" lines _ hmodule decl List.mem_cons_self [0] constant rfl

end UnionTyping
