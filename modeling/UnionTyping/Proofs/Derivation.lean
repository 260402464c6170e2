import UnionTyping.Proofs.Names
import UnionTyping.Proofs.Reading

/-!
# `Proofs.Derivation` — how expressions are made up of what was read

`Form source R c e d` says that the text between two places has the form of an expression whose own expressions are
such as `R` tells. It knows nothing of the order of choices, levels or limits of nesting that the parser goes by.
What is read has a form (`operand_form`, `extension_form`), and so have the expressions in it: it is derived
(`exprWithin_derives`). So a property of all expressions that can be read is proved by induction on derivations.
-/

namespace UnionTyping

namespace Grammar

open Parse

variable {c c₁ d : Cursor} {e : Expr} {source : Nat}

/-- **The text between two places has the form of the expression**, if `R` tells which expressions are in it. -/
inductive Form (source : Nat) (R : Cursor → Expr → Cursor → Prop) : Cursor → Expr → Cursor → Prop
  | literal {c d : Cursor} {v : Literal} :
      (Grammar.literal c).result = some (v, d) → Form source R c (.literal ⟨source, c.offset, d.offset⟩ v) d
  | name {c d : Cursor} {p : Path} :
      (path c).result = some (p, d) → Form source R c (.name ⟨source, c.offset, d.offset⟩ p) d
  | lambda {c c₁ c₂ d : Cursor} {x : Ident} {b : Expr} :
      (ident source c).result = some (x, c₁) → c₁.Reaches c₂ → R c₂ b d →
      Form source R c (.lambda ⟨source, c.offset, d.offset⟩ x b) d
  | conditional {c c₁ c₂ c₃ c₄ c₅ d : Cursor} {p a b : Expr} :
      c.Reaches c₁ → R c₁ p c₂ → c₂.Reaches c₃ → R c₃ a c₄ → c₄.Reaches c₅ → R c₅ b d →
      Form source R c (.conditional ⟨source, c.offset, d.offset⟩ p a b) d
  | binding {c c₁ c₂ c₃ c₄ c₅ d : Cursor} {x : Ident} {v b : Expr} :
      c.Reaches c₁ → (ident source c₁).result = some (x, c₂) → c₂.Reaches c₃ → R c₃ v c₄ → c₄.Reaches c₅ → R c₅ b d →
      Form source R c (.binding ⟨source, c.offset, d.offset⟩ x v b) d
  | parenthesized {c c₁ c₂ d : Cursor} {e : Expr} :
      c.Reaches c₁ → c₁.rest.length < c.rest.length → R c₁ e c₂ → c₂.Reaches d →
      Form source R c (e.withSpan ⟨source, c.offset, d.offset⟩) d
  | unary {c c₁ d : Cursor} {op : UnaryOp} {x : Expr} :
      c.Reaches c₁ → R c₁ x d → Form source R c (.unary ⟨source, c.offset, d.offset⟩ op x) d
  | binary {c c₁ c₂ d : Cursor} {op : BinaryOp} {l r : Expr} :
      R c l c₁ → c₁.Reaches c₂ → R c₂ r d → Form source R c (.binary ⟨source, c.offset, d.offset⟩ op l r) d
  | apply {c c₁ c₂ d : Cursor} {f a : Expr} :
      R c f c₁ → c₁.Reaches c₂ → R c₂ a d → Form source R c (.apply ⟨source, c.offset, d.offset⟩ f a) d

/-- **The text between two places is the expression**: it has its form, and so have the expressions in it. -/
inductive Derives (source : Nat) : Cursor → Expr → Cursor → Prop
  | of_form {R : Cursor → Expr → Cursor → Prop} {c d : Cursor} {e : Expr} :
      (∀ {c e d}, R c e d → Derives source c e d) → Form source R c e d → Derives source c e d

theorem position_reads {n : Nat} : (position c).result = some (n, d) ↔ c.offset = n ∧ c = d := by
  rw [position, Option.some.injEq, Prod.mk.injEq]

theorem spanFrom_reads {start : Nat} {s : Span} :
    (spanFrom source start c).result = some (s, d) ↔ ⟨source, start, c.offset⟩ = s ∧ c = d := by
  constructor
  · intro h
    obtain ⟨n, c₁, hn, h⟩ := bind_reads.mp h
    obtain ⟨rfl, rfl⟩ := position_reads.mp hn
    exact pure_reads.mp h
  · rintro ⟨rfl, rfl⟩
    exact bind_reads.mpr ⟨_, _, position_reads.mpr ⟨rfl, rfl⟩, pure_reads.mpr ⟨rfl, rfl⟩⟩

/-- A token between blanks. -/
theorem Parse.Forward.gap {p : Parse Unit} (hp : p.Forward) {c₂ : Cursor} {u u₁ u₂ : Unit}
    (h₁ : (blanks c).result = some (u, c₁)) (h₂ : (p c₁).result = some (u₁, c₂))
    (h₃ : (blanks c₂).result = some (u₂, d)) : c.Reaches d :=
  ((blanks_forward.reaches h₁).trans (hp.reaches h₂)).trans (blanks_forward.reaches h₃)

/-! ## What is read has a form -/

variable {least : Nat}

section
variable {expr : Nat → Parse Expr} {R : Cursor → Expr → Cursor → Prop}
  (hexpr : ∀ {least c e d}, (expr least c).result = some (e, d) → R c e d)
include hexpr

theorem lambda_form (h : (lambda source expr c.offset c).result = some (e, d)) : Form source R c e d := by
  simp only [lambda, bind_reads, pure_reads, spanFrom_reads] at h
  obtain ⟨x, c₁, hx, _, c₂, h₂, _, c₃, h₃, _, c₄, h₄, b, c₅, hb, _, _, ⟨rfl, rfl⟩, rfl, rfl⟩ := h
  exact .lambda hx (Forward.gap (.exact _) h₂ h₃ h₄) (hexpr hb)

theorem conditional_form (h : (conditional source expr c.offset c).result = some (e, d)) : Form source R c e d := by
  simp only [conditional, bind_reads, pure_reads, spanFrom_reads] at h
  obtain ⟨_, c₁, h₁, _, c₂, h₂, p, c₃, hp, _, c₄, h₄, _, c₅, h₅, _, c₆, h₆, a, c₇, ha, _, c₈, h₈, _, c₉, h₉, _, c₁₀,
    h₁₀, b, c₁₁, hb, _, _, ⟨rfl, rfl⟩, rfl, rfl⟩ := h
  have hif := ((keyword_forward _).reaches h₁).trans (blanks_forward.reaches h₂)
  have hthen := (keyword_forward _).gap h₄ h₅ h₆
  have helse := (keyword_forward _).gap h₈ h₉ h₁₀
  exact .conditional hif (hexpr hp) hthen (hexpr ha) helse (hexpr hb)

theorem binding_form (h : (binding source expr c.offset c).result = some (e, d)) : Form source R c e d := by
  simp only [binding, bind_reads, pure_reads, spanFrom_reads] at h
  obtain ⟨_, c₁, h₁, _, c₂, h₂, x, c₃, hx, _, c₄, h₄, _, c₅, h₅, _, c₆, h₆, v, c₇, hv, _, c₈, h₈, _, c₉, h₉, _, c₁₀,
    h₁₀, b, c₁₁, hb, _, _, ⟨rfl, rfl⟩, rfl, rfl⟩ := h
  have hlet := ((keyword_forward _).reaches h₁).trans (blanks_forward.reaches h₂)
  have hequals := Forward.gap (.exact _) h₄ h₅ h₆
  have hin := (keyword_forward _).gap h₈ h₉ h₁₀
  exact .binding hlet hx hequals (hexpr hv) hin (hexpr hb)

theorem parenthesized_form (h : (parenthesized source expr c.offset c).result = some (e, d)) :
    Form source R c e d := by
  simp only [parenthesized, bind_reads, pure_reads, spanFrom_reads] at h
  obtain ⟨_, c₁, h₁, _, c₂, h₂, e, c₃, he, _, c₄, h₄, _, c₅, h₅, _, _, ⟨rfl, rfl⟩, rfl, rfl⟩ := h
  have hblanks := blanks_forward.reaches h₂
  have hshort : c₂.rest.length < c.rest.length := by
    obtain ⟨xs, hxs, -⟩ := hblanks
    rw [exact_reads h₁, hxs]
    simp only [String.reduceToList, List.length_append, List.length_cons]
    omega
  have hclose := (blanks_forward.reaches h₄).trans ((Forward.exact _).reaches h₅)
  exact .parenthesized (((Forward.exact _).reaches h₁).trans hblanks) hshort (hexpr he) hclose

/-- The six forms of an atom. Literals and names have no expressions inside them. -/
theorem atom_form (h : (atom source expr c).result = some (e, d)) : Form source R c e d := by
  obtain ⟨start, c₁, hstart, h⟩ := bind_reads.mp h
  obtain ⟨rfl, rfl⟩ := position_reads.mp hstart
  rcases orElse_reads.mp h with h | ⟨-, h⟩
  · exact lambda_form hexpr h
  rcases orElse_reads.mp h with h | ⟨-, h⟩
  · exact conditional_form hexpr h
  rcases orElse_reads.mp h with h | ⟨-, h⟩
  · exact binding_form hexpr h
  rcases orElse_reads.mp h with h | ⟨-, h⟩
  · simp only [bind_reads, pure_reads, spanFrom_reads] at h
    obtain ⟨v, c₁, hv, _, _, ⟨rfl, rfl⟩, rfl, rfl⟩ := h
    exact .literal hv
  rcases orElse_reads.mp h with h | ⟨-, h⟩
  · simp only [bind_reads, pure_reads, spanFrom_reads] at h
    obtain ⟨p, c₁, hp, _, _, ⟨rfl, rfl⟩, rfl, rfl⟩ := h
    exact .name hp
  · exact parenthesized_form hexpr h

theorem prefixed_form {op : UnaryOp} (h : (prefixed source expr c.offset op c).result = some (e, d)) :
    Form source R c e d := by
  simp only [prefixed, bind_reads, pure_reads, spanFrom_reads] at h
  obtain ⟨_, c₁, h₁, _, c₂, h₂, x, c₃, hx, _, _, ⟨rfl, rfl⟩, rfl, rfl⟩ := h
  exact .unary (((unaryOp_forward op).reaches h₁).trans (blanks_forward.reaches h₂)) (hexpr hx)

theorem operand_form (h : (operand source expr c.offset c).result = some (e, d)) : Form source R c e d := by
  rcases orElse_reads.mp h with h | ⟨-, h⟩
  · exact prefixed_form hexpr h
  rcases orElse_reads.mp h with h | ⟨-, h⟩
  · exact prefixed_form hexpr h
  rcases orElse_reads.mp h with h | ⟨-, h⟩
  · exact prefixed_form hexpr h
  · exact atom_form hexpr h

/-- An extension takes the expression so far as its left side or as its function. -/
theorem extension_form {left : Expr} (hatom : ∀ {c e d}, (atom source expr c).result = some (e, d) → R c e d)
    (hleft : R c left c₁)
    (h : (extension source expr least c.offset left c₁).result = some (e, d)) : Form source R c e d := by
  rcases orElse_reads.mp h with h | ⟨-, h⟩
  · obtain ⟨p, hp, h⟩ := firstOf_reads h
    obtain ⟨op, -, rfl⟩ := List.mem_map.mp hp
    simp only [infixed, bind_reads, pure_reads, spanFrom_reads] at h
    obtain ⟨_, c₂, h₂, _, c₃, h₃, _, c₄, h₄, r, c₅, hr, _, _, ⟨rfl, rfl⟩, rfl, rfl⟩ := h
    exact .binary hleft ((binaryOp_forward op).gap h₂ h₃ h₄) (hexpr hr)
  · simp only [applied, bind_reads, pure_reads, spanFrom_reads] at h
    obtain ⟨_, c₂, h₂, a, c₃, ha, _, _, ⟨rfl, rfl⟩, rfl, rfl⟩ := h
    exact .apply hleft (blanks1_forward.reaches h₂) (hatom ha)

end

/-! ## What is read is derived -/

section
variable {expr : Nat → Parse Expr}
  (hexpr : ∀ {least c e d}, (expr least c).result = some (e, d) → Derives source c e d)
include hexpr

theorem operand_derives (h : (operand source expr c.offset c).result = some (e, d)) : Derives source c e d :=
  .of_form id (operand_form hexpr h)

theorem extension_derives {left : Expr} (hleft : Derives source c left c₁)
    (h : (extension source expr least c.offset left c₁).result = some (e, d)) : Derives source c e d :=
  .of_form id (extension_form hexpr (fun h => .of_form id (atom_form hexpr h)) hleft h)

/-- As often as an expression is extended, it is derived: induction on the number of extensions. -/
theorem extend_derives {left : Expr} (hleft : Derives source c left c₁)
    (h : (extend source expr least c.offset left c₁).result = some (e, d)) : Derives source c e d := by
  have hwithin : ∀ limit left c₁, Derives source c left c₁ →
      (extendWithin source expr least c.offset limit left c₁).result = some (e, d) → Derives source c e d := by
    intro limit
    induction limit with
    | zero =>
      intro left c₁ hleft h
      obtain ⟨rfl, rfl⟩ := pure_reads.mp h
      exact hleft
    | succ limit ih =>
      intro left c₁ hleft h
      rcases orElse_reads.mp h with h | ⟨-, h⟩
      · obtain ⟨next, c₂, hnext, h⟩ := bind_reads.mp h
        exact ih next c₂ (extension_derives hexpr hleft hnext) h
      · obtain ⟨rfl, rfl⟩ := pure_reads.mp h
        exact hleft
  exact hwithin _ left c₁ hleft h

end

/-- **What is read is derived.** -/
theorem exprWithin_derives {depth : Nat} (h : (exprWithin source depth least c).result = some (e, d)) :
    Derives source c e d := by
  induction depth generalizing least c d e with
  | zero => cases h
  | succ depth ih =>
    obtain ⟨start, c₁, hstart, h⟩ := bind_reads.mp h
    obtain ⟨rfl, rfl⟩ := position_reads.mp hstart
    obtain ⟨left, c₂, hleft, h⟩ := bind_reads.mp h
    exact extend_derives ih (operand_derives ih hleft) h

/-- **Whatever is read as an expression is derived from the text.** -/
theorem expr_derives (h : (expr source c).result = some (e, d)) : Derives source c e d :=
  exprWithin_derives h

/-- A declaration is a name and an expression behind it. -/
theorem decl_reads {x : Decl} (h : (decl source c).result = some (x, d)) :
    ∃ c₁ c₂, (ident source c).result = some (x.name, c₁) ∧ c₁.Reaches c₂ ∧ (expr source c₂).result = some (x.body, d) ∧
      x.span = ⟨source, c.offset, d.offset⟩ := by
  simp only [decl, bind_reads, pure_reads, position_reads, spanFrom_reads] at h
  obtain ⟨_, _, ⟨rfl, rfl⟩, n, c₁, hn, _, c₂, h₂, _, c₃, h₃, _, c₄, h₄, b, c₅, hb, _, _, ⟨rfl, rfl⟩, rfl, rfl⟩ := h
  exact ⟨c₁, c₄, hn, Forward.gap (.exact _) h₂ h₃ h₄, hb, rfl⟩

end Grammar
end UnionTyping
