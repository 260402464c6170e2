import UnionTyping.Proofs.Lookup
import UnionTyping.Proofs.Unrolling

/-!
# `Proofs.Printers` — the two printers of types agree

Types are written twice over: for messages by `Ty.text`, which knows no colours, and for readers by `Ty.pieces`, whose
pieces are painted and then read without their colours. Both have to place every bracket and separator alike.

`Styled.Shows s x` says what a reader without colours gets from the pieces: exactly `x`, and no escape sequence is left
open behind it. So it goes through concatenation, and the agreement is one induction over the type with one step per
constructor (`Ty.shows_pieces`). All that can break it is a name that opens an escape sequence itself. Exposing puts
together names of the type and of the bindings and makes up none (`Ty.Unescaped.expose`).
-/

namespace UnionTyping

open List Styled Ansi Ty

/-! ## What pieces show -/

namespace Styled

/-- **What a reader without colours gets**: the text, with no escape sequence open at its end. -/
def Shows (s : Styled) (x : String) : Prop :=
  skim opening closing false s.painted.toList = (false, x.toList)

variable {s : Styled} {p : Piece} {x y : String}

theorem Shows.plain (h : s.Shows x) : s.plain = x := by
  rw [Styled.plain, strip, h, String.ofList_toList]

theorem shows_nil : Shows [] "" := by
  simp [Shows, painted, skim]

theorem Shows.append {s' : Styled} (h : s.Shows x) (h' : s'.Shows y) : Shows (s ++ s') (x ++ y) := by
  simp only [Shows, painted, map_append, String.join_append, String.toList_append] at h h' ⊢
  rw [skim_append, h, h']

/-- A sequence that switches an attribute on is dropped. -/
theorem skim_code (c : Code) : skim opening closing false c.text.toList = (false, []) := by
  cases c <;> decide

theorem skim_style (style : Style) : skim opening closing false (Style.text style).toList = (false, []) := by
  induction style with
  | nil => rfl
  | cons c style ih =>
    have hcons : Style.text (c :: style) = c.text ++ Style.text style := by
      simp [Style.text]
    rw [hcons, String.toList_append, skim_append, skim_code, ih]
    rfl

/-- A piece shows its text, as long as that opens no sequence. -/
theorem shows_piece (h : opening ∉ p.text.toList) : Shows [p] p.text := by
  have hpainted : painted [p] = p.painted := by simp [painted]
  rw [Shows, hpainted, Piece.painted]
  by_cases hstyle : p.style.isEmpty
  · rw [if_pos hstyle, skim_of_not_mem h]
  · rw [if_neg hstyle, paint, String.toList_append, String.toList_append, skim_append, skim_append,
      skim_style, skim_of_not_mem h, skim_code]
    simp

theorem Shows.cons (hp : opening ∉ p.text.toList) (h : s.Shows x) : Shows (p :: s) (p.text ++ x) :=
  (shows_piece hp).append h

theorem Shows.separated {items : List Styled} {xs : List String} (hs : s.Shows y) (h : Forall₂ Shows items xs) :
    (separated s items).Shows (y.intercalate xs) := by
  induction h with
  | nil => exact shows_nil
  | @cons item x items xs hitem h ih =>
    cases h with
    | nil => simpa [Styled.separated] using hitem
    | cons _ _ =>
      have hrest := (hitem.append hs).append ih
      simpa [Styled.separated, String.intercalate_cons_cons, List.intercalate] using hrest

end Styled

/-! ## Both printers -/

namespace Ty

/-- The names that are written for the topmost constructor of a type. -/
def ownNames (nameOf : TyVar → String) : Ty → List String
  | .simple n => [n]
  | .func _ _ => []
  | .record n _ fields => n :: fields.map Prod.fst
  | .algebraic n _ _ => [n]
  | .recursive n _ => [n]
  | .union _ => []
  | .var v => [nameOf v]

/-- No name in the type opens an escape sequence. -/
def Unescaped (nameOf : TyVar → String) (t : Ty) : Prop :=
  ∀ u ∈ t.subterms, ∀ n ∈ u.ownNames nameOf, opening ∉ n.toList

instance (nameOf : TyVar → String) (t : Ty) : Decidable (t.Unescaped nameOf) :=
  inferInstanceAs (Decidable (∀ u ∈ t.subterms, ∀ n ∈ u.ownNames nameOf, opening ∉ n.toList))

variable {t : Ty} {nameOf : TyVar → String}

theorem Unescaped.child {c : Ty} (h : t.Unescaped nameOf) (hc : c ∈ t.children) : c.Unescaped nameOf :=
  (forall_subterms_iff.mp h).2 c hc

theorem Unescaped.own (h : t.Unescaped nameOf) : ∀ n ∈ t.ownNames nameOf, opening ∉ n.toList :=
  h t (self_mem_subterms t)

theorem relabel_id (t : Ty) : t.relabel id = t := by
  induction t using childwise with
  | step t ih =>
    cases t with
    | var v => rfl
    | simple n => rfl
    | _ =>
      simp only [relabel, relabelList_eq_map, relabelFields_eq_map]
      exact mapChildren_of_forall_eq ih

theorem isFunc_relabel (ρ : TyVar → TyVar) (t : Ty) : (t.relabel ρ).isFunc = t.isFunc := by
  cases t <;> rfl

theorem isUnion_relabel (ρ : TyVar → TyVar) (t : Ty) : (t.relabel ρ).isUnion = t.isUnion := by
  cases t <;> rfl

variable {ρ : TyVar → TyVar}

theorem shows_parenthesized {x : String} {s : Styled} (condition : Bool) (h : s.Shows x) :
    (parenthesized condition s).Shows (if condition then "(" ++ x ++ ")" else x) := by
  cases condition with
  | true => exact (Shows.cons (by decide) h).append (shows_piece (by decide))
  | false => exact h

theorem shows_angled {items : List Styled} {xs : List String} (h : Forall₂ Shows items xs) :
    (angled items).Shows (bracketed xs) := by
  have hcomma : Shows [punctuation ",", bare " "] ", " :=
    .cons (by decide) (shows_piece (by decide))
  cases h with
  | nil => exact shows_nil
  | cons hitem hitems =>
    exact (Shows.cons (by decide) (hcomma.separated (.cons hitem hitems))).append (shows_piece (by decide))

/-! The lists inside a type, given that its children are shown. -/

theorem shows_piecesList {ts : List Ty} (h : ∀ t ∈ ts, (t.pieces nameOf).Shows (t.relabel ρ).text) :
    Forall₂ Shows (piecesList nameOf ts) (textList (relabelList ρ ts)) := by
  induction ts with
  | nil => exact .nil
  | cons t ts ih =>
    obtain ⟨ht, hts⟩ := forall_mem_cons.mp h
    exact .cons ht (ih hts)

theorem shows_piecesFields {fs : List (String × Ty)} (hlabels : ∀ e ∈ fs, opening ∉ e.1.toList)
    (h : ∀ e ∈ fs, (e.2.pieces nameOf).Shows (e.2.relabel ρ).text) :
    Forall₂ Shows (piecesFields nameOf fs) (textFields (relabelFields ρ fs)) := by
  induction fs with
  | nil => exact .nil
  | cons e fs ih =>
    obtain ⟨hlabel, hlabels⟩ := forall_mem_cons.mp hlabels
    obtain ⟨he, hfs⟩ := forall_mem_cons.mp h
    have hcolon : Shows [punctuation ":", bare " "] ": " :=
      .cons (by decide) (shows_piece (by decide))
    exact .cons ((Shows.cons (p := bare e.1) hlabel hcolon).append he) (ih hlabels hfs)

theorem shows_piecesMembers {ms : List Ty} (h : ∀ m ∈ ms, (m.pieces nameOf).Shows (m.relabel ρ).text) :
    Forall₂ Shows (piecesMembers nameOf ms) (textMembers (relabelList ρ ms)) := by
  induction ms with
  | nil => exact .nil
  | cons m ms ih =>
    obtain ⟨hm, hms⟩ := forall_mem_cons.mp h
    rw [relabelList, textMembers, isFunc_relabel]
    exact .cons (shows_parenthesized m.isFunc hm) (ih hms)

/-- **The coloured printer shows what the plain one writes**, with the names that it is given for the variables. -/
theorem shows_pieces (hρ : t.VarsIn {v | (ρ v).name = nameOf v}) (ht : t.Unescaped nameOf) :
    (t.pieces nameOf).Shows (t.relabel ρ).text := by
  induction t using structural with
  | simple n => exact shows_piece (p := typeName n) (ht.own n (by simp [ownNames]))
  | func a r iha ihr =>
    have hfst : a ∈ (func a r).children := by simp [children]
    have hsnd : r ∈ (func a r).children := by simp [children]
    have ha := shows_parenthesized (a.isFunc || a.isUnion) (iha (hρ.child hfst) (ht.child hfst))
    have harrow : Shows [bare " ", punctuation "->", bare " "] " -> " :=
      .cons (by decide) (.cons (by decide) (shows_piece (by decide)))
    have hr := ihr (hρ.child hsnd) (ht.child hsnd)
    simpa only [pieces, relabel, text, isFunc_relabel, isUnion_relabel] using (ha.append harrow).append hr
  | record n as fs ihas ihfs =>
    have hargs := shows_angled (shows_piecesList fun t h =>
      have hc := mem_append_left (fs.map Prod.snd) h
      ihas t h (hρ.child hc) (ht.child hc))
    have hopen : Shows [bare " ", punctuation "\x7b", bare " "] " \x7b " :=
      .cons (by decide) (.cons (by decide) (shows_piece (by decide)))
    have hcomma : Shows [punctuation ",", bare " "] ", " :=
      .cons (by decide) (shows_piece (by decide))
    have hlabels : ∀ e ∈ fs, opening ∉ e.1.toList :=
      fun e he => ht.own e.1 (mem_cons_of_mem n (mem_map_of_mem he))
    have hfields := hcomma.separated (shows_piecesFields hlabels fun e h =>
      have hc := mem_append_right as (mem_map_of_mem (f := Prod.snd) h)
      ihfs e h (hρ.child hc) (ht.child hc))
    have hclose : Shows [bare " ", punctuation "\x7d"] " \x7d" :=
      .cons (by decide) (shows_piece (by decide))
    have hname := Shows.cons (p := typeName n) (ht.own n (by simp [ownNames])) hargs
    exact ((hname.append hopen).append hfields).append hclose
  | algebraic n as os ihas _ =>
    have hargs := shows_angled (shows_piecesList fun t h =>
      have hc := mem_append_left os h
      ihas t h (hρ.child hc) (ht.child hc))
    exact .cons (p := typeName n) (ht.own n (by simp [ownNames])) hargs
  | recursive n as ihas =>
    have hargs := shows_angled (shows_piecesList fun t h => ihas t h (hρ.child h) (ht.child h))
    exact .cons (p := typeName n) (ht.own n (by simp [ownNames])) hargs
  | union ms ih =>
    have hbar : Shows [bare " ", punctuation "|", bare " "] " | " :=
      .cons (by decide) (.cons (by decide) (shows_piece (by decide)))
    exact hbar.separated (shows_piecesMembers fun m h => ih m h (hρ.child h) (ht.child h))
  | var v =>
    have hname : (ρ v).name = nameOf v := hρ v (by simp)
    rw [relabel, text, hname]
    refine shows_piece (p := variableName (nameOf v)) ?_
    simpa [variableName, String.toList_append, opening] using ht.own (nameOf v) (by simp [ownNames])

/-! ## Names of exposed types -/

variable {f : TyVar → Ty}

/-- Only variables are written under other names. -/
theorem Unescaped.rename {other : TyVar → String} (h : t.Unescaped nameOf)
    (hother : ∀ v ∈ t.vars, opening ∉ (other v).toList) : t.Unescaped other := by
  intro u hu n hn
  cases u with
  | var v =>
    rw [mem_singleton.mp hn]
    exact hother v (var_mem_subterms.mp hu)
  | _ => exact h _ hu n hn

theorem ownNames_subst (h : t.IsRigid) : (t.subst f).ownNames nameOf = t.ownNames nameOf := by
  rw [h.subst_eq]
  cases t <;> simp [mapChildren, ownNames]

theorem Unescaped.subst (h : t.Unescaped nameOf) (hf : ∀ v ∈ t.vars, (f v).Unescaped nameOf) :
    (t.subst f).Unescaped nameOf := by
  intro u hu n hn
  cases u with
  | var w =>
    obtain ⟨v, hv, hw⟩ := mem_vars_subst.mp (var_mem_subterms.mp hu)
    exact hf v hv _ (var_mem_subterms.mpr hw) n hn
  | union ms => cases hn
  | _ =>
    rcases subterm_of_subst (by exact trivial) hu with ⟨d, hd, hrigid, heq⟩ | ⟨v, hv, huv⟩
    · exact h d hd n (ownNames_subst hrigid ▸ heq ▸ hn)
    · exact hf v hv _ huv n hn

/-- **Exposing makes up no names.** -/
theorem Unescaped.expose {a : Arena} (ht : t.Unescaped nameOf)
    (ha : ∀ id b, a.binding? id = some b → b.Unescaped nameOf) : (a.expose t).Unescaped nameOf := by
  have hvar : ∀ {t : Ty} {v : TyVar}, t.Unescaped nameOf → v ∈ t.vars → (var v).Unescaped nameOf :=
    fun h hv u hu => h u (mem_singleton.mp hu ▸ var_mem_subterms.mpr hv)
  have hwithin : ∀ hops (t : Ty), t.Unescaped nameOf → (a.exposeWithin hops t).Unescaped nameOf := by
    intro hops
    induction hops with
    | zero => exact fun t ht => ht.subst fun v hv => hvar ht hv
    | succ hops ih =>
      intro t ht
      refine ht.subst fun v hv => ?_
      cases hb : a.binding? v.id with
      | none => exact hvar ht hv
      | some b => exact ih b (ha v.id b hb)
  exact hwithin a.size t ht

/-! ## Invented names -/

/-- What stands behind the letter: how often the alphabet was used up. -/
theorem toList_letterName (i : Nat) : (letterName i).toList =
    Char.ofNat ('a'.toNat + i % 26) :: if i / 26 = 0 then [] else Nat.toDigits 10 (i / 26) := by
  rw [letterName]
  by_cases h : i < 26
  · rw [if_pos h, if_pos (Nat.div_eq_of_lt h)]
    simp
  · have hdiv : i / 26 ≠ 0 := fun e => h (Nat.lt_of_div_eq_zero (by decide) e)
    rw [if_neg h, if_neg hdiv, String.toList_append, Nat.toString_eq_repr, Nat.toList_repr]
    simp

theorem isAlphanum_of_mem_letterName {i : Nat} {c : Char} (h : c ∈ (letterName i).toList) : c.isAlphanum = true := by
  have hletter : ∀ k : Fin 26, (Char.ofNat ('a'.toNat + k)).isAlphanum = true := by decide
  rw [toList_letterName] at h
  rcases mem_cons.mp h with rfl | h
  · exact hletter ⟨i % 26, Nat.mod_lt i (by decide)⟩
  · by_cases hdiv : i / 26 = 0
    · rw [if_pos hdiv] at h
      cases h
    · rw [if_neg hdiv] at h
      have hdigit := Nat.isDigit_of_mem_toDigits (by decide) (by decide) h
      simp [Char.isAlphanum, hdigit]

/-- **No two variables get the same name.** -/
theorem letterName_inj {i j : Nat} (h : letterName i = letterName j) : i = j := by
  have hletter : ∀ k l : Fin 26, Char.ofNat ('a'.toNat + k) = Char.ofNat ('a'.toNat + l) → k = l := by decide
  have hlist := congrArg String.toList h
  rw [toList_letterName, toList_letterName] at hlist
  obtain ⟨hhead, htail⟩ := List.cons.inj hlist
  have hmod := hletter ⟨i % 26, Nat.mod_lt i (by decide)⟩ ⟨j % 26, Nat.mod_lt j (by decide)⟩ hhead
  -- The digits give the number back, and no digits stand for zero.
  have hvalue : ∀ n, Nat.ofDigitChars 10 (if n = 0 then [] else Nat.toDigits 10 n) 0 = n := by
    intro n
    by_cases hn : n = 0
    · rw [if_pos hn, hn]
      rfl
    · rw [if_neg hn, Nat.ofDigitChars_ten_toDigits]
  have hdiv : i / 26 = j / 26 := by
    rw [← hvalue (i / 26), htail, hvalue]
  have hrest : i % 26 = j % 26 := congrArg Fin.val hmod
  omega

theorem letterOf_letters {vs : List TyVar} {v : TyVar} (hvs : vs.Nodup) (hids : ∀ w ∈ vs, w.id = v.id → w = v)
    (hv : v ∈ vs) :
    letterOf (letters vs) v = letterName (vs.idxOf v) := by
  obtain ⟨i, hi, rfl⟩ := getElem_of_mem hv
  have hsome : ((letters vs).reverse.lookup vs[i].id).isSome := by
    rw [lookup_isSome_iff]
    refine ⟨(vs[i].id, letterName i), mem_reverse.mpr (mem_map.mpr ⟨(vs[i], i), ?_, rfl⟩), beq_self_eq_true _⟩
    exact mem_zipIdx_iff_getElem?.mpr (getElem?_eq_getElem hi)
  obtain ⟨name, hname⟩ := Option.isSome_iff_exists.mp hsome
  obtain ⟨⟨w, j⟩, hw, heq⟩ := mem_map.mp (mem_reverse.mp (mem_of_lookup hname))
  have hwj : vs[j]? = some w := mem_zipIdx_iff_getElem?.mp hw
  obtain ⟨hid, rfl⟩ := Prod.mk.inj heq
  obtain ⟨hj, hget⟩ := List.getElem?_eq_some_iff.mp hwj
  have hsame := hids w (mem_of_getElem? hwj) hid
  rw [letterOf, hname, Option.getD_some, ← hsame, ← hget, hvs.idxOf_getElem]

end Ty

/-- The generalized text, as it is read without colours. -/
theorem Arena.shows_generalized {a : Arena} {t : Ty} {nameOf : TyVar → String} (ht : (a.expose t).Unescaped nameOf)
    (hids : ∀ v ∈ (a.expose t).vars, ∀ w ∈ (a.expose t).vars, w.id = v.id → w = v) :
    (a.generalized t).Shows ((a.expose t).relabel fun v => ⟨v.id, letterName ((a.freeVars t).idxOf v)⟩).text := by
  have hletter : ∀ v ∈ (a.expose t).vars,
      letterOf (letters (a.freeVars t)) v = letterName ((a.freeVars t).idxOf v) := by
    intro v hv
    exact letterOf_letters (nodup_eraseDups _) (fun w hw => hids v hv w (mem_eraseDups.mp hw)) (mem_eraseDups.mpr hv)
  refine shows_pieces (fun v hv => (hletter v hv).symm) (ht.rename fun v hv hescape => ?_)
  rw [hletter v hv] at hescape
  exact absurd (isAlphanum_of_mem_letterName hescape) (by decide)

/-- **The printers agree** on all types whose names open no escape sequence: without its colours, the coloured text of
    a type is the text of the exposed type, and the generalized one is that text after its free variables got the names
    `a`, `b` and so on in the order in which they are listed. No two of these names are the same. -/
theorem printers_agree {a : Arena} {t : Ty} (ha : a.WellFormed) (ht : a.Owns t) (hnames : t.Unescaped TyVar.name)
    (hbindings : ∀ id b, a.binding? id = some b → b.Unescaped TyVar.name) :
    (a.pieces t).plain = (a.expose t).text ∧
      (a.generalized t).plain = ((a.expose t).relabel fun v => ⟨v.id, letterName ((a.freeVars t).idxOf v)⟩).text ∧
      Function.Injective letterName := by
  have hexposed := hnames.expose hbindings
  have howned := ha.owns_expose ht
  refine ⟨?_, (Arena.shows_generalized hexposed fun v hv w hw hid => ?_).plain, fun i j => letterName_inj⟩
  · have hshows := shows_pieces (ρ := id) (fun _ _ => rfl) hexposed
    rw [relabel_id] at hshows
    exact hshows.plain
  · exact Regime.owned_coherent 0 a w v ⟨howned w hw, Nat.zero_le _⟩ ⟨howned v hv, Nat.zero_le _⟩ hid

/-- A variable that is bound to a function, in a place where a function needs parentheses, and two that stay free. -/
theorem printers_agree_nested :
    let c := ((Context.new "main" false).fresh.2.fresh.2.fresh.2.unify (.var ⟨4, "t4"⟩)
      (.func (.var ⟨3, "t3"⟩) (.var ⟨2, "t2"⟩))).2
    let a := c.store.arena
    let t : Ty := .func (.union [.var ⟨4, "t4"⟩, .recursive "List" [.var ⟨2, "t2"⟩]]) .integer
    a.WellFormed ∧ a.Owns t ∧ t.Unescaped TyVar.name ∧ (a.pieces t).plain = "(('t3 -> 't2) | List<'t2>) -> Integer" ∧
      (a.generalized t).plain = "(('a -> 'b) | List<'b>) -> Integer" := by
  intro c a t
  have hreach : c.Reachable := .unify (.fresh (.fresh (.fresh (.new _ _)))) (by decide +kernel) (by decide +kernel)
  have howned : a.Owns t := by decide +kernel
  have hnames : t.Unescaped TyVar.name := by decide +kernel
  have hbindings : ∀ id < a.size, ∀ b ∈ a.binding? id, b.Unescaped TyVar.name := by decide +kernel
  obtain ⟨hpieces, hgeneralized, -⟩ := printers_agree hreach.wellFormed.arena howned hnames
    fun id b hb => hbindings id (Arena.lt_size_of_binding? hb) b hb
  refine ⟨hreach.wellFormed.arena, howned, hnames, hpieces.trans ?_, hgeneralized.trans ?_⟩
  · decide +kernel
  · decide +kernel

end UnionTyping
