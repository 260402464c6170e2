import UnionTyping.Proofs.ReadBack
import UnionTyping.Proofs.Relocation

/-!
# `Proofs.Lookahead` — the next characters decide what is read

Choice is ordered, but what a text starts with leaves at most one alternative, so the order hardly ever matters.
* An expression starts with one of the characters in `opens` (`exprAbove_refuses`), and an atom with neither a blank
  nor an operator (`atom_inert`).
* What goes on with an expression is an arrow, an operator or an argument, each with the expression that belongs to it:
  a `Sequel`. At most one sequel is read at a place (`Sequel.unique`). Where one operator is written like the beginning
  of another one, no operand starts with what is left of the longer one.

So an expression is extended by the sequel that is there, if its level is high enough (`extension_reads_iff`), and an
expression is an operand with as many extensions as there are (`exprAbove_reads_iff`).
-/

namespace UnionTyping

open List

namespace Grammar

open Parse

/-! ## Tokens, as they are read -/

variable {source : Nat} {cs : List Char} {c d : Cursor} {u : Unit}

namespace Parse

variable {α : Type} {p : Char → Bool}

theorem not_refuses {q : Parse α} {r : α × Cursor} (h : (q c).result = some r) : ¬ q.Refuses c.rest := by
  intro hrefuses
  have hnone : (q c).result = none := hrefuses c.offset
  rw [h] at hnone
  cases hnone

/-- What a parser takes from a text is what it reads there. -/
theorem Takes.of_reads {ds : List Char} {a : α} {P : α → Prop} {q : Parse α} (htakes : q.Takes P c.rest ds)
    (h : (q c).result = some (a, d)) : P a ∧ d.rest = ds := by
  obtain ⟨b, stop, hread, hb⟩ := htakes c.offset
  have hread : (q c).result = some (b, ⟨stop, ds⟩) := hread
  rw [h] at hread
  cases hread
  exact ⟨hb, rfl⟩

theorem char_reads {x : Char} (h : (char p c).result = some (x, d)) : c.rest = x :: d.rest ∧ p x = true := by
  unfold char at h
  split at h
  · rename_i y rest hrest
    split at h
    · rename_i hy
      cases h
      exact ⟨hrest, hy⟩
    · cases h
  · cases h

theorem char_eq_none : (char p c).result = none ↔ headIs p c.rest = false := by
  constructor
  · intro h
    cases hhead : headIs p c.rest with
    | false => rfl
    | true =>
      unfold char at h
      unfold headIs at hhead
      split at h
      · rename_i x rest hrest
        rw [hrest] at hhead
        have hx : p x = true := hhead
        rw [if_pos hx] at h
        cases h
      · rename_i hrest
        rw [hrest] at hhead
        cases hhead
  · exact fun h => char_refuses h c.offset

/-- A text does not start with characters of two classes that share none. -/
theorem headIs_of_disjoint {q : Char → Bool} (hpq : ∀ x, p x = true → q x = false) (h : headIs p cs = true) :
    headIs q cs = false := by
  cases cs with
  | nil => rfl
  | cons x cs => exact hpq x h

theorem headIs_dropWhile (p : Char → Bool) (cs : List Char) : headIs p (cs.dropWhile p) = false := by
  induction cs with
  | nil => rfl
  | cons x cs ih =>
    rw [dropWhile_cons]
    split
    · exact ih
    · exact Bool.eq_false_iff.mpr ‹_›

theorem chars_reads {xs : List Char} (h : (chars p c).result = some (xs, d)) :
    c.rest = xs ++ d.rest ∧ (∀ x ∈ xs, p x = true) ∧ headIs p d.rest = false := by
  obtain ⟨rfl, hrest⟩ := (chars_takes_all p c.rest).of_reads h
  rw [hrest]
  exact ⟨takeWhile_append_dropWhile.symm, all_eq_true.mp all_takeWhile, headIs_dropWhile p c.rest⟩

theorem notFollowedBy_reads {q : Parse α} : (q.notFollowedBy c).result = some (u, d) ↔ (q c).result = none ∧ c = d := by
  unfold Parse.notFollowedBy
  split
  · rename_i hread
    simp [hread]
  · rename_i hread
    simp [hread]

/-- An alternative is what counts where all others fail. -/
theorem firstOf_reads_of {ι : Type} {f : ι → Parse α} {xs : List ι} {x : ι} {r : α × Cursor} (hx : x ∈ xs)
    (h : (f x c).result = some r) (hothers : ∀ y ∈ xs, y ≠ x → (f y c).result = none) :
    (firstOf (xs.map f) c).result = some r := by
  induction xs with
  | nil => cases hx
  | cons y ys ih =>
    by_cases hyx : y = x
    · exact orElse_reads.mpr (.inl (hyx ▸ h))
    · have hys : x ∈ ys := (mem_cons.mp hx).resolve_left (Ne.symm hyx)
      refine orElse_reads.mpr (.inr ⟨hothers y mem_cons_self hyx, ih hys fun z hz => ?_⟩)
      exact hothers z (mem_cons_of_mem y hz)

end Parse

theorem blanks_reads (h : (blanks c).result = some (u, d)) : d.rest = c.rest.dropWhile isSpace :=
  ((blanks_all c.rest).of_reads h).2

theorem blanks1_reads (h : (blanks1 c).result = some (u, d)) :
    headIs isSpace c.rest = true ∧ d.rest = c.rest.dropWhile isSpace := by
  simp only [blanks1, chars1, bind_reads, pure_reads] at h
  obtain ⟨_, c₁, ⟨x, c₂, hx, xs, c₃, hxs, rfl, rfl⟩, -, rfl⟩ := h
  obtain ⟨hrest, hspace⟩ := char_reads hx
  obtain ⟨hrest', hspaces, hstop⟩ := chars_reads hxs
  rw [hrest, hrest']
  exact ⟨hspace, (dropWhile_append_stop (forall_mem_cons.mpr ⟨hspace, hspaces⟩) hstop).symm⟩

theorem keyword_stops {w : String} (h : (keyword w c).result = some (u, d)) :
    c.rest = w.toList ++ d.rest ∧ headIs isWordRest d.rest = false := by
  refine ⟨keyword_reads h, ?_⟩
  obtain ⟨_, c₁, -, h⟩ := bind_reads.mp h
  obtain ⟨hchar, rfl⟩ := notFollowedBy_reads.mp h
  exact char_eq_none.mp hchar

theorem word_reads {w : String} (h : (word c).result = some (w, d)) :
    isWord w = true ∧ c.rest = w.toList ++ d.rest ∧ headIs isWordRest d.rest = false := by
  refine ⟨word_yields c w d h, ?_⟩
  simp only [word, bind_reads, pure_reads] at h
  obtain ⟨x, c₁, hx, xs, c₂, hxs, rfl, rfl⟩ := h
  obtain ⟨hrest, -, hstop⟩ := chars_reads hxs
  exact ⟨by rw [(char_reads hx).1, hrest, String.toList_ofList, cons_append], hstop⟩

theorem name_reads {w : String} (h : (name c).result = some (w, d)) :
    isName w = true ∧ c.rest = w.toList ++ d.rest ∧ headIs isWordRest d.rest = false := by
  refine ⟨name_yields c w d h, ?_⟩
  rcases orElse_reads.mp h with h | ⟨-, h⟩
  · simp only [Parse.quiet, unreserved, bind_reads] at h
    obtain ⟨w', c₁, hw, h⟩ := h
    split at h
    · cases h
    · obtain ⟨rfl, rfl⟩ := pure_reads.mp h
      exact (word_reads hw).2
  · cases h

theorem ident_reads {x : Ident} (h : (ident source c).result = some (x, d)) :
    isName x.name = true ∧ c.rest = x.name.toList ++ d.rest ∧ headIs isWordRest d.rest = false := by
  simp only [ident, bind_reads, pure_reads, position_reads] at h
  obtain ⟨_, _, ⟨rfl, rfl⟩, n, c₁, hn, _, _, ⟨rfl, rfl⟩, rfl, rfl⟩ := h
  exact name_reads hn

/-! ## How atoms and expressions start -/

variable {expr : Nat → Parse Expr}

theorem lead_of_keyword {w : String} (hw : isWord w = true) (h : (keyword w c).result = some (u, d)) :
    lead c.rest = w := by
  obtain ⟨hrest, hstop⟩ := keyword_stops h
  rw [hrest, lead_append hw hstop]

/-- **An atom starts with neither a blank nor an operator.** -/
theorem atom_inert {e : Expr} (h : (atom source expr c).result = some (e, d)) : Inert c.rest := by
  have hname : ∀ {w c₁}, isName w = true ∧ c.rest = w.toList ++ c₁ ∧ headIs isWordRest c₁ = false → Inert c.rest := by
    rintro w c₁ ⟨hw, hrest, hstop⟩
    rw [hrest]
    exact .of_isName hw hstop
  have hkeyword : ∀ {w u c₁}, w ∈ ["if", "let"] → (keyword w c).result = some (u, c₁) → Inert c.rest := by
    intro w u c₁ hw hread
    obtain ⟨hrest, hstop⟩ := keyword_stops hread
    have hwords : ∀ w ∈ ["if", "let"], isWord w = true ∧ w ∉ ["or", "and", "not"] := by decide
    rw [hrest]
    exact .of_lead (hwords w hw).1 (hwords w hw).2 hstop
  obtain ⟨start, c₁, hstart, h⟩ := bind_reads.mp h
  obtain ⟨rfl, rfl⟩ := position_reads.mp hstart
  rcases orElse_reads.mp h with h | ⟨-, h⟩
  · obtain ⟨x, c₁, hx, -⟩ := bind_reads.mp h
    exact hname (ident_reads hx)
  rcases orElse_reads.mp h with h | ⟨-, h⟩
  · obtain ⟨_, c₁, hif, -⟩ := bind_reads.mp h
    exact hkeyword (by decide) hif
  rcases orElse_reads.mp h with h | ⟨-, h⟩
  · obtain ⟨_, c₁, hlet, -⟩ := bind_reads.mp h
    exact hkeyword (by decide) hlet
  rcases orElse_reads.mp h with h | ⟨-, h⟩
  · obtain ⟨v, c₁, hv, -⟩ := bind_reads.mp h
    obtain ⟨-, hword, hhead⟩ := lead_of_literal (not_refuses hv)
    exact ⟨hhead, fun hop => hword (mem_cons_of_mem _ (mem_cons_of_mem _ hop))⟩
  rcases orElse_reads.mp h with h | ⟨-, h⟩
  · obtain ⟨p, c₁, hp, -⟩ := bind_reads.mp h
    obtain ⟨w, c₂, hw, -⟩ := bind_reads.mp hp
    exact hname (name_reads hw)
  · obtain ⟨_, c₁, hopen, -⟩ := bind_reads.mp h
    rw [exact_reads hopen]
    exact .of_char rfl rfl _

/-- What an expression starts with. -/
def opens (c : Char) : Bool :=
  isWordStart c || (opensLiteral c || c == '(') || (c == '-' || c == '+')

theorem climb_refuses (h : headIs opens cs = false) (least : Nat) : (climb source expr least).Refuses cs := by
  obtain ⟨⟨hstart, hatom⟩, hsign⟩ : (headIs isWordStart cs = false ∧
      headIs (fun c => opensLiteral c || c == '(') cs = false) ∧ headIs (fun c => c == '-' || c == '+') cs = false := by
    cases cs with
    | nil => exact ⟨⟨rfl, rfl⟩, rfl⟩
    | cons c cs =>
      have hc : opens c = false := h
      simp only [opens, Bool.or_eq_false_iff] at hc
      simpa only [headIs, Bool.or_eq_false_iff] using hc
  have hword := isWord_lead hstart
  have hne : ∀ {w}, isWord w = true → lead cs ≠ w := by
    rintro w hw rfl
    rw [hword] at hw
    cases hw
  have hsigns : ∀ op ∈ [UnaryOp.neg, .plus], (unaryOp op).Refuses cs := by
    intro op hop
    simp only [mem_cons, not_mem_nil, or_false] at hop
    rcases hop with rfl | rfl <;>
    · refine exact_refuses ?_
      rintro ⟨rest, rfl⟩
      cases hsign
  refine .after position_passes fun start _ => .bind ?_
  refine .orElse (.bind (hsigns _ (by decide))) (.orElse (.bind (hsigns _ (by decide))) ?_)
  refine .orElse (.bind (keyword_refuses (by decide) (hne (by decide)))) (atom_refuses (isName_eq_false hword) ?_ hatom)
  intro hmem
  have hwords : ∀ w ∈ ["if", "let", "True", "False"], isWord w = true := by decide
  exact hne (hwords _ hmem) rfl

theorem exprAbove_refuses (h : headIs opens cs = false) (least : Nat) : (exprAbove source least).Refuses cs :=
  fun offset => climb_refuses h least offset

theorem exprAbove_opens {least : Nat} {e : Expr} (h : (exprAbove source least c).result = some (e, d)) :
    headIs opens c.rest = true := by
  cases hhead : headIs opens c.rest with
  | true => rfl
  | false => exact absurd (exprAbove_refuses hhead least) (not_refuses h)

/-! ## What goes on with an expression -/

/-- What can go on with an expression: the arrow of a function behind its parameter, an operator, or an argument. -/
inductive Sequel
  | arrow
  | operator (op : BinaryOp)
  | argument
deriving DecidableEq

namespace Sequel

/-- Reads the sequel with the expression that belongs to it. -/
def parse (source : Nat) : Sequel → Parse Expr
  | .arrow => do
      blanks
      exact "->"
      blanks
      exprAbove source 0
  | .operator op => do
      blanks
      binaryOp op
      blanks
      exprAbove source (op.level + 1)
  | .argument => do
      blanks1
      atom source (exprAbove source)

/-- The sign in front of the expression. -/
def sign : Sequel → String
  | .arrow => "->"
  | .operator op => op.symbol
  | .argument => ""

variable {s t : Sequel} {r : Expr}

/-- The sequels that have a sign. -/
def signed : List Sequel :=
  .arrow :: binaryOps.map .operator

theorem mem_signed (hs : s ≠ .argument) : s ∈ signed := by
  cases s with
  | arrow => decide
  | operator op => cases op <;> decide
  | argument => exact absurd rfl hs

theorem binaryOp_reads {op : BinaryOp} (h : (binaryOp op c).result = some (u, d)) :
    c.rest = op.symbol.toList ++ d.rest := by
  unfold binaryOp at h
  split at h
  · exact keyword_reads h
  · exact exact_reads h

/-- Behind the sign stands what an expression can start with. -/
theorem sign_reads (hs : s ≠ .argument) (h : (s.parse source c).result = some (r, d)) :
    ∃ rest, c.rest.dropWhile isSpace = s.sign.toList ++ rest ∧ headIs opens (rest.dropWhile isSpace) = true := by
  cases s with
  | argument => exact absurd rfl hs
  | arrow =>
    simp only [parse, bind_reads] at h
    obtain ⟨_, c₁, h₁, _, c₂, h₂, _, c₃, h₃, he⟩ := h
    refine ⟨c₂.rest, ?_, ?_⟩
    · rw [← blanks_reads h₁, exact_reads h₂]
      rfl
    · rw [← blanks_reads h₃]
      exact exprAbove_opens he
  | operator op =>
    simp only [parse, bind_reads] at h
    obtain ⟨_, c₁, h₁, _, c₂, h₂, _, c₃, h₃, he⟩ := h
    refine ⟨c₂.rest, ?_, ?_⟩
    · rw [← blanks_reads h₁, binaryOp_reads h₂]
      rfl
    · rw [← blanks_reads h₃]
      exact exprAbove_opens he

/-- Where a sign is written like the beginning of another one, no expression starts with the rest. -/
theorem sign_longer : ∀ s ∈ signed, ∀ t ∈ signed, s.sign.toList <+: t.sign.toList →
    s = t ∨ headIs (fun c => !isSpace c && !opens c) (t.sign.toList.drop s.sign.toList.length) = true := by
  decide

theorem eq_of_sign (hs : s ∈ signed) (ht : t ∈ signed) (hpre : s.sign.toList <+: t.sign.toList)
    {rest : List Char} (hrest : cs = s.sign.toList ++ rest) (hopens : headIs opens (rest.dropWhile isSpace) = true)
    (hcs : t.sign.toList <+: cs) : s = t := by
  refine (sign_longer s hs t ht hpre).resolve_right fun hlonger => ?_
  obtain ⟨more, hmore⟩ := hpre
  obtain ⟨left, hleft⟩ := hcs
  rw [← hmore, drop_left] at hlonger
  rw [← hmore, hrest, append_assoc] at hleft
  have hrest : rest = more ++ left := (append_cancel_left hleft).symm
  cases more with
  | nil => cases hlonger
  | cons x more =>
    have hx : (!isSpace x && !opens x) = true := hlonger
    simp only [Bool.and_eq_true, Bool.not_eq_true'] at hx
    rw [hrest, cons_append, dropWhile_cons, hx.1, if_neg Bool.false_ne_true] at hopens
    have hcontra : opens x = true := hopens
    rw [hx.2] at hcontra
    cases hcontra

/-- Where no operator stands, only an argument goes on. -/
theorem refuses_of_inert (h : Inert (cs.dropWhile isSpace)) (hs : s ≠ .argument) : (s.parse source).Refuses cs := by
  cases s with
  | argument => exact absurd rfl hs
  | arrow => exact .after (blanks_all cs) fun _ _ => .bind (h.exact_refuses rfl)
  | operator op => exact .after (blanks_all cs) fun _ _ => .bind (h.binaryOp_refuses op)

theorem argument_inert (h : (parse source .argument c).result = some (r, d)) : Inert (c.rest.dropWhile isSpace) := by
  obtain ⟨_, c₁, hblanks, hatom⟩ := bind_reads.mp h
  rw [← (blanks1_reads hblanks).2]
  exact atom_inert hatom

/-- **At most one sequel is read at a place.** -/
theorem unique {e : Cursor} {r' : Expr} (hs : (s.parse source c).result = some (r, d))
    (ht : (t.parse source c).result = some (r', e)) : s = t := by
  by_cases hsa : s = .argument
  · subst hsa
    refine Decidable.byContradiction fun hne => ?_
    exact not_refuses ht (refuses_of_inert (argument_inert hs) (Ne.symm hne))
  by_cases hta : t = .argument
  · subst hta
    exact absurd (refuses_of_inert (argument_inert ht) hsa) (not_refuses hs)
  obtain ⟨rest, hrest, hopens⟩ := sign_reads hsa hs
  obtain ⟨rest', hrest', hopens'⟩ := sign_reads hta ht
  have hpre : s.sign.toList <+: c.rest.dropWhile isSpace := ⟨rest, hrest.symm⟩
  have hpre' : t.sign.toList <+: c.rest.dropWhile isSpace := ⟨rest', hrest'.symm⟩
  rcases prefix_or_prefix_of_prefix hpre hpre' with hshort | hshort
  · exact eq_of_sign (mem_signed hsa) (mem_signed hta) hshort hrest hopens hpre'
  · exact (eq_of_sign (mem_signed hta) (mem_signed hsa) hshort hrest' hopens' hpre).symm

theorem argument_refuses (hatom : (atom source (exprAbove source)).Refuses (cs.dropWhile isSpace)) :
    (parse source .argument).Refuses cs := by
  intro offset
  cases hread : (parse source .argument ⟨offset, cs⟩).result with
  | none => rfl
  | some r =>
    obtain ⟨_, c₁, hblanks, hargument⟩ := bind_reads.mp hread
    rw [← (blanks1_reads hblanks).2] at hatom
    exact absurd hatom (not_refuses hargument)

/-- Nothing goes on where neither an operator nor an atom starts. -/
theorem refuses (hinert : Inert (cs.dropWhile isSpace))
    (hatom : (atom source (exprAbove source)).Refuses (cs.dropWhile isSpace)) (s : Sequel) :
    (s.parse source).Refuses cs := by
  by_cases hs : s = .argument
  · exact hs ▸ argument_refuses hatom
  · exact refuses_of_inert hinert hs

end Sequel

/-! ## Extensions -/

section
variable {least start : Nat} {left e : Expr}

theorem infixed_reads {op : BinaryOp} :
    (infixed source (exprAbove source) start left op c).result = some (e, d) ↔
      ∃ r, ((Sequel.operator op).parse source c).result = some (r, d) ∧
        e = .binary ⟨source, start, d.offset⟩ op left r := by
  simp only [infixed, Sequel.parse, bind_reads, pure_reads, spanFrom_reads]
  constructor
  · rintro ⟨_, c₁, h₁, _, c₂, h₂, _, c₃, h₃, r, c₄, hr, _, _, ⟨rfl, rfl⟩, rfl, rfl⟩
    exact ⟨r, ⟨_, c₁, h₁, _, c₂, h₂, _, c₃, h₃, hr⟩, rfl⟩
  · rintro ⟨r, ⟨_, c₁, h₁, _, c₂, h₂, _, c₃, h₃, hr⟩, rfl⟩
    exact ⟨_, c₁, h₁, _, c₂, h₂, _, c₃, h₃, r, d, hr, _, _, ⟨rfl, rfl⟩, rfl, rfl⟩

theorem applied_reads :
    (applied source (exprAbove source) start left c).result = some (e, d) ↔
      ∃ a, (Sequel.argument.parse source c).result = some (a, d) ∧ e = .apply ⟨source, start, d.offset⟩ left a := by
  simp only [applied, Sequel.parse, bind_reads, pure_reads, spanFrom_reads]
  constructor
  · rintro ⟨_, c₁, h₁, a, c₂, ha, _, _, ⟨rfl, rfl⟩, rfl, rfl⟩
    exact ⟨a, ⟨_, c₁, h₁, ha⟩, rfl⟩
  · rintro ⟨a, ⟨_, c₁, h₁, ha⟩, rfl⟩
    exact ⟨_, c₁, h₁, a, d, ha, _, _, ⟨rfl, rfl⟩, rfl, rfl⟩

/-- Whether the sequel extends an expression whose operators have at least the given level. -/
def Sequel.binds (least : Nat) : Sequel → Bool
  | .arrow => false
  | .operator op => decide (least ≤ op.level)
  | .argument => true

/-- The expression in front together with the one behind it. -/
def Sequel.join (span : Span) (left right : Expr) : Sequel → Expr
  | .operator op => .binary span op left right
  | _ => .apply span left right

/-- **An expression is extended by the sequel that is there**, if its level is high enough. -/
theorem extension_reads_iff :
    (extension source (exprAbove source) least start left c).result = some (e, d) ↔
      ∃ s r, Sequel.binds least s = true ∧ (s.parse source c).result = some (r, d) ∧
        e = s.join ⟨source, start, d.offset⟩ left r := by
  constructor
  · intro h
    rcases orElse_reads.mp h with h | ⟨-, h⟩
    · obtain ⟨p, hp, h⟩ := firstOf_reads h
      obtain ⟨op, hop, rfl⟩ := mem_map.mp hp
      obtain ⟨r, hr, rfl⟩ := infixed_reads.mp h
      exact ⟨.operator op, r, (mem_filter.mp hop).2, hr, rfl⟩
    · obtain ⟨a, ha, rfl⟩ := applied_reads.mp h
      exact ⟨.argument, a, rfl, ha, rfl⟩
  · rintro ⟨s, r, hbinds, hr, rfl⟩
    cases s with
    | arrow => cases hbinds
    | operator op =>
      refine orElse_reads.mpr (.inl (firstOf_reads_of (x := op) ?_ (infixed_reads.mpr ⟨r, hr, rfl⟩) ?_))
      · exact mem_filter.mpr ⟨by cases op <;> decide, hbinds⟩
      · intro other _ hne
        cases hother : (infixed source (exprAbove source) start left other c).result with
        | none => rfl
        | some q =>
          obtain ⟨r', hr', -⟩ := infixed_reads.mp hother
          exact absurd (Sequel.operator.inj (Sequel.unique hr' hr)) hne
    | argument =>
      refine orElse_reads.mpr (.inr ⟨?_, applied_reads.mpr ⟨r, hr, rfl⟩⟩)
      cases hother : (firstOf ((binaryOps.filter fun op => least ≤ op.level).map
          (infixed source (exprAbove source) start left)) c).result with
      | none => rfl
      | some q =>
        obtain ⟨p, hp, hq⟩ := firstOf_reads hother
        obtain ⟨op, -, rfl⟩ := mem_map.mp hp
        obtain ⟨r', hr', -⟩ := infixed_reads.mp hq
        cases Sequel.unique hr' hr

theorem extension_eq_none :
    (extension source (exprAbove source) least start left c).result = none ↔
      ∀ s, Sequel.binds least s = true → (s.parse source c).result = none := by
  constructor
  · intro h s hbinds
    cases hs : (s.parse source c).result with
    | none => rfl
    | some r =>
      rw [extension_reads_iff.mpr ⟨s, r.1, hbinds, hs, rfl⟩] at h
      cases h
  · intro h
    cases hread : (extension source (exprAbove source) least start left c).result with
    | none => rfl
    | some r =>
      obtain ⟨s, r, hbinds, hr, -⟩ := extension_reads_iff.mp hread
      rw [h s hbinds] at hr
      cases hr

/-- Extensions read at least one character. -/
theorem extension_shorter (h : (extension source (exprAbove source) least start left c).result = some (e, d)) :
    d.rest.length < c.rest.length :=
  (extension_mirrors (k := 0) endsLine_nil (exprAbove_mirrors source endsLine_nil c.rest.length) least start left c
    (Nat.lt_succ_self _)).2 e d h

end

/-- **One expression is made of another one by extensions**, from the place behind the one to that behind the other. -/
inductive Extends (source least start : Nat) : Expr → Cursor → Expr → Cursor → Prop
  | done {e : Expr} {c : Cursor} : Extends source least start e c e c
  | more {left mid e : Expr} {c c₁ d : Cursor} :
      (extension source (exprAbove source) least start left c).result = some (mid, c₁) →
      Extends source least start mid c₁ e d → Extends source least start left c e d

section
variable {least start : Nat} {e : Expr}

theorem Extends.mono {left : Expr} {least' : Nat} (hle : least' ≤ least) (h : Extends source least start left c e d) :
    Extends source least' start left c e d := by
  induction h with
  | done => exact .done
  | more hfirst _ ih =>
    obtain ⟨s, r, hbinds, hr, rfl⟩ := extension_reads_iff.mp hfirst
    refine .more (extension_reads_iff.mpr ⟨s, r, ?_, hr, rfl⟩) ih
    cases s with
    | arrow => cases hbinds
    | operator op => exact decide_eq_true (Nat.le_trans hle (of_decide_eq_true hbinds))
    | argument => rfl

theorem extendWithin_total (limit : Nat) (left : Expr) (c : Cursor) :
    ∃ r, (extendWithin source expr least start limit left c).result = some r := by
  cases limit with
  | zero => exact ⟨_, rfl⟩
  | succ limit =>
    rw [extendWithin, result_orElse, result_pure]
    exact Option.isSome_iff_exists.mp (by simp)

theorem extendWithin_reads {left : Expr} {limit : Nat} (hlimit : c.rest.length < limit) :
    (extendWithin source (exprAbove source) least start limit left c).result = some (e, d) ↔
      Extends source least start left c e d ∧ (extension source (exprAbove source) least start e d).result = none := by
  induction limit generalizing left c with
  | zero => exact absurd hlimit (Nat.not_lt_zero _)
  | succ limit ih =>
    rw [extendWithin, result_orElse, result_bind, result_pure]
    cases hfirst : (extension source (exprAbove source) least start left c).result with
    | none =>
      constructor
      · intro h
        cases h
        exact ⟨.done, hfirst⟩
      · rintro ⟨hextends, -⟩
        cases hextends with
        | done => rfl
        | more hmore =>
          rw [hfirst] at hmore
          cases hmore
    | some r =>
      have hshort : r.2.rest.length < limit := by
        have hshorter := extension_shorter hfirst
        omega
      obtain ⟨q, hq⟩ := extendWithin_total limit r.1 r.2
      rw [Option.bind_some, hq, Option.some_or, ← hq, ih hshort]
      constructor
      · rintro ⟨hextends, hend⟩
        exact ⟨.more hfirst hextends, hend⟩
      · rintro ⟨hextends, hend⟩
        cases hextends with
        | done =>
          rw [hfirst] at hend
          cases hend
        | more hmore hextends =>
          rw [hfirst] at hmore
          cases hmore
          exact ⟨hextends, hend⟩

/-- **An operand with some extensions is read between two places.** More may follow. -/
def Spine (source least : Nat) (c : Cursor) (e : Expr) (d : Cursor) : Prop :=
  ∃ left c₁, (operand source (exprAbove source) c.offset c).result = some (left, c₁) ∧
    Extends source least c.offset left c₁ e d

/-- **An expression is an operand with as many extensions as there are.** -/
theorem exprAbove_reads_iff :
    (exprAbove source least c).result = some (e, d) ↔
      Spine source least c e d ∧ (extension source (exprAbove source) least c.offset e d).result = none := by
  rw [exprAbove_eq]
  simp only [climb, bind_reads, position_reads]
  constructor
  · rintro ⟨_, _, ⟨rfl, rfl⟩, left, c₁, hleft, h⟩
    obtain ⟨hextends, hend⟩ := (extendWithin_reads (Nat.lt_succ_self _)).mp h
    exact ⟨⟨left, c₁, hleft, hextends⟩, hend⟩
  · rintro ⟨⟨left, c₁, hleft, hextends⟩, hend⟩
    exact ⟨_, _, ⟨rfl, rfl⟩, left, c₁, hleft, (extendWithin_reads (Nat.lt_succ_self _)).mpr ⟨hextends, hend⟩⟩

end

end Grammar
end UnionTyping
