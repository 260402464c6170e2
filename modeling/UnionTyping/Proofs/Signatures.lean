import UnionTyping.Proofs.Printers

/-!
# `Proofs.Signatures` — signatures say which type is meant

What is shown of a type is its generalized text. For the types of programs nothing is lost by that: two texts are the
same exactly if one type is the other with its variables renamed (`signatures_faithful`).

That the notation is unambiguous is shown in front of any rest that cannot belong to the type. A text begins with an
operand, which is a word or stands in parentheses, and what follows it tells the constructors apart: nothing, an arrow
or a bar (`Ty.Begins`). So two equal texts begin with equal operands and go on alike (`Ty.alike_of_spelled`). The
letters of variables are taken from the order of their first appearance, which renaming does not touch.
-/

namespace UnionTyping

open List

open Ty (Alike letterName)

namespace Ty

/-- The constructors that the types of programs are made of. Names can be told from the notation around them, and
    unions are in normal form. -/
def IsLegible : Ty → Prop
  | .simple n => n ≠ "" ∧ n.toList.all (· ∉ [' ', '\'', '(', ')', Ansi.opening])
  | .func _ _ => True
  | .union ms => 2 ≤ ms.length ∧ ∀ m ∈ ms, m.isUnion = false
  | .var _ => True
  | _ => False

instance : DecidablePred IsLegible := by
  intro t
  cases t <;> unfold IsLegible <;> infer_instance

/-- The type is built from such constructors. -/
def Legible (t : Ty) : Prop :=
  ∀ u ∈ t.subterms, u.IsLegible

instance (t : Ty) : Decidable t.Legible :=
  inferInstanceAs (Decidable (∀ u ∈ t.subterms, u.IsLegible))

/-- No two variables of the type share a number. -/
def Numbered (t : Ty) : Prop :=
  ∀ v ∈ t.vars, ∀ w ∈ t.vars, w.id = v.id → w = v

instance (t : Ty) : Decidable t.Numbered :=
  inferInstanceAs (Decidable (∀ v ∈ t.vars, ∀ w ∈ t.vars, w.id = v.id → w = v))

variable {t : Ty}

theorem Legible.child {c : Ty} (h : t.Legible) (hc : c ∈ t.children) : c.Legible :=
  (forall_subterms_iff.mp h).2 c hc

theorem Legible.own (h : t.Legible) : t.IsLegible :=
  h t (self_mem_subterms t)

theorem Legible.name {n : String} (h : (simple n).Legible) {c : Char} (hc : c ∈ n.toList) :
    c ∉ [' ', '\'', '(', ')', Ansi.opening] :=
  of_decide_eq_true (all_eq_true.mp h.own.2 c hc)

/-! ## Texts and operands -/

variable {u : Ty} {i j : TyVar → Nat} {x y : List Char}

/-- The text of a type whose variables are written as letters. -/
def spelled (i : TyVar → Nat) (t : Ty) : List Char :=
  (t.relabel fun v => ⟨v.id, letterName (i v)⟩).text.toList

/-- In front of an arrow and between bars, such types stand in parentheses. -/
def compound (t : Ty) : Bool :=
  t.isFunc || t.isUnion

/-- A type in front of an arrow or between bars. -/
def operand (i : TyVar → Nat) (t : Ty) : List Char :=
  if t.compound then '(' :: (spelled i t ++ [')']) else spelled i t

/-- The members of a union behind the first one. -/
def members (i : TyVar → Nat) (ms : List Ty) : List Char :=
  ms.flatMap fun m => ' ' :: '|' :: ' ' :: operand i m

theorem spelled_func (a r : Ty) : spelled i (.func a r) = operand i a ++ (' ' :: '-' :: '>' :: ' ' :: spelled i r) := by
  simp only [spelled, operand, compound, relabel, text, isFunc_relabel, isUnion_relabel]
  by_cases h : (a.isFunc || a.isUnion) = true
  · simp [h]
  · simp [h]

theorem spelled_union {m : Ty} {ms : List Ty} (h : ∀ t ∈ m :: ms, t.isUnion = false) :
    spelled i (.union (m :: ms)) = operand i m ++ members i ms := by
  have hmember : ∀ m : Ty, m.isUnion = false → operand i m =
      (if m.isFunc then "(" ++ (m.relabel fun v => ⟨v.id, letterName (i v)⟩).text ++ ")"
        else (m.relabel fun v => ⟨v.id, letterName (i v)⟩).text).toList := by
    intro m hm
    cases hfunc : m.isFunc with
    | true => simp [operand, compound, spelled, hfunc]
    | false => simp [operand, compound, spelled, hfunc, hm]
  obtain ⟨hm, hms⟩ := forall_mem_cons.mp h
  simp only [spelled, relabel, relabelList, text, textMembers, isFunc_relabel]
  induction ms generalizing m with
  | nil => simp [relabelList, textMembers, members, hmember m hm]
  | cons n ms ih =>
    obtain ⟨hn, hms⟩ := forall_mem_cons.mp hms
    simp only [relabelList, textMembers, isFunc_relabel, String.intercalate_cons_cons, String.toList_append,
      members, flatMap_cons, ← hmember m hm, ih (forall_mem_cons.mpr ⟨hn, hms⟩) hn hms]
    simp

/-- What may follow a type: the end, or the parenthesis around it. -/
def Closes (x : List Char) : Prop :=
  ∀ c ∈ x.head?, c = ')'

/-- What may follow an operand. -/
def Ends (x : List Char) : Prop :=
  ∀ c ∈ x.head?, c = ' ' ∨ c = ')'

theorem Closes.ends (h : Closes x) : Ends x :=
  fun c hc => .inr (h c hc)

theorem Closes.ne_blank (h : Closes x) : x ≠ ' ' :: y := by
  rintro rfl
  exact absurd (h ' ' rfl) (by decide)

/-- A word and what follows it can be told apart. -/
theorem word_append_inj {xs ys : List Char} (hxs : ∀ c ∈ xs, c ∉ [' ', '(', ')']) (hys : ∀ c ∈ ys, c ∉ [' ', '(', ')'])
    (hx : Ends x) (hy : Ends y) (h : xs ++ x = ys ++ y) : xs = ys ∧ x = y := by
  have hend : ∀ {c : Char} {cs x y : List Char}, Ends x → x = c :: cs ++ y → c ∉ [' ', '(', ')'] → False := by
    rintro c cs x y hx rfl hc
    rcases hx c rfl with rfl | rfl
    · exact hc (by decide)
    · exact hc (by decide)
  induction xs generalizing ys with
  | nil =>
    cases ys with
    | nil => exact ⟨rfl, h⟩
    | cons c ys => exact (hend hx h (hys c mem_cons_self)).elim
  | cons c xs ih =>
    cases ys with
    | nil => exact (hend hy h.symm (hxs c mem_cons_self)).elim
    | cons d ys =>
      obtain ⟨rfl, hrest⟩ := List.cons.inj h
      obtain ⟨rfl, rfl⟩ := ih (fun c hc => hxs c (mem_cons_of_mem _ hc))
        (fun c hc => hys c (mem_cons_of_mem _ hc)) hrest
      exact ⟨rfl, rfl⟩

theorem spelled_var (i : TyVar → Nat) (v : TyVar) : spelled i (.var v) = '\'' :: (letterName (i v)).toList := by
  simp [spelled, relabel, text]

/-- Types that need no parentheses are names and variables. -/
theorem Legible.word_cases (ht : t.Legible) (h : t.compound = false) :
    (∃ n, t = .simple n) ∨ ∃ v, t = .var v := by
  cases t with
  | simple n => exact .inl ⟨n, rfl⟩
  | var v => exact .inr ⟨v, rfl⟩
  | func a r => cases h
  | union ms => cases h
  | _ => exact ht.own.elim

theorem spelled_word (ht : t.Legible) (h : t.compound = false) :
    spelled i t ≠ [] ∧ ∀ c ∈ spelled i t, c ∉ [' ', '(', ')'] := by
  rcases ht.word_cases h with ⟨n, rfl⟩ | ⟨v, rfl⟩
  · refine ⟨fun h => ht.own.1 (String.toList_eq_nil_iff.mp h), fun c hc hmem => ht.name hc ?_⟩
    simp only [mem_cons] at hmem ⊢
    tauto
  · rw [spelled_var]
    refine ⟨cons_ne_nil _ _, forall_mem_cons.mpr ⟨by decide, fun c hc hmem => ?_⟩⟩
    have hbracket : [' ', '(', ')'].all (! ·.isAlphanum) := rfl
    simpa [isAlphanum_of_mem_letterName hc] using all_eq_true.mp hbracket c hmem

theorem alike_of_word (ht : t.Legible) (hu : u.Legible) (htw : t.compound = false)
    (huw : u.compound = false) (h : spelled i t = spelled j u) :
    Alike (fun v w => i v = j w) t u := by
  have hquote : ∀ {n : String} {cs : List Char}, (simple n).Legible → n.toList ≠ '\'' :: cs :=
    fun hn h => hn.name (h ▸ mem_cons_self) (by decide : '\'' ∈ _)
  rcases ht.word_cases htw with ⟨n, rfl⟩ | ⟨v, rfl⟩ <;> rcases hu.word_cases huw with ⟨m, rfl⟩ | ⟨w, rfl⟩
  · obtain rfl := String.toList_inj.mp h
    exact .simple n
  · exact absurd (h.trans (spelled_var j w)) (hquote ht)
  · exact absurd (h.symm.trans (spelled_var i v)) (hquote hu)
  · rw [spelled_var, spelled_var] at h
    exact .var (letterName_inj (String.toList_inj.mp (List.cons.inj h).2))

/-- **Equal operands are alike.** What they are in parentheses is given by the hypothesis. -/
theorem alike_of_operand (ht : t.Legible) (hu : u.Legible) (hx : Ends x) (hy : Ends y)
    (ih : t.compound = true → ∀ {x y}, Closes x → Closes y → spelled i t ++ x = spelled j u ++ y →
      Alike (fun v w => i v = j w) t u ∧ x = y)
    (h : operand i t ++ x = operand j u ++ y) : Alike (fun v w => i v = j w) t u ∧ x = y := by
  have hclash : ∀ {i : TyVar → Nat} {t : Ty} {x y : List Char}, t.Legible → t.compound = false →
      '(' :: x = spelled i t ++ y → False := by
    intro i t x y ht hword h
    obtain ⟨hne, hchars⟩ := spelled_word (i := i) ht hword
    obtain ⟨c, cs, hcs⟩ := exists_cons_of_ne_nil hne
    rw [hcs] at h hchars
    exact hchars c mem_cons_self ((List.cons.inj h).1 ▸ by decide)
  unfold operand at h
  by_cases htw : t.compound = true
  · rw [if_pos htw] at h
    by_cases huw : u.compound = true
    · rw [if_pos huw] at h
      have hclose : ∀ z, Closes (')' :: z) := fun z c hc => (Option.some.inj hc).symm
      obtain ⟨halike, hrest⟩ := ih htw (hclose x) (hclose y) (by simpa using h)
      exact ⟨halike, (List.cons.inj hrest).2⟩
    · rw [if_neg huw] at h
      exact (hclash hu (Bool.not_eq_true _ ▸ huw) h).elim
  · rw [if_neg htw] at h
    rw [Bool.not_eq_true] at htw
    by_cases huw : u.compound = true
    · rw [if_pos huw] at h
      exact (hclash ht htw h.symm).elim
    · rw [if_neg huw] at h
      rw [Bool.not_eq_true] at huw
      obtain ⟨hsame, hrest⟩ := word_append_inj (spelled_word ht htw).2 (spelled_word hu huw).2 hx hy h
      exact ⟨alike_of_word ht hu htw huw hsame, hrest⟩

/-! ## Whole texts -/

/-- **How a text goes on** behind its first operand. -/
inductive Begins (i : TyVar → Nat) : Ty → Ty → List Char → Prop
  | word {t : Ty} (h : t.compound = false) : Begins i t t []
  | func (a r : Ty) : Begins i (.func a r) a (' ' :: '-' :: '>' :: ' ' :: spelled i r)
  | union (m n : Ty) (ms : List Ty) :
      Begins i (.union (m :: n :: ms)) m (members i (n :: ms))

theorem Legible.begins (i : TyVar → Nat) (ht : t.Legible) :
    ∃ m tail, Begins i t m tail ∧ spelled i t = operand i m ++ tail ∧ m.Legible := by
  cases t with
  | simple n => exact ⟨_, _, .word rfl, (append_nil _).symm, ht⟩
  | var v => exact ⟨_, _, .word rfl, (append_nil _).symm, ht⟩
  | func a r => exact ⟨_, _, .func a r, spelled_func a r, ht.child (by simp [children])⟩
  | union ms =>
    obtain ⟨hlength, hflat⟩ := ht.own
    obtain _ | ⟨m, _ | ⟨n, ms⟩⟩ := ms
    · exact absurd hlength (by decide)
    · exact absurd hlength (by simp)
    · exact ⟨_, _, .union m n ms, spelled_union hflat, ht.child mem_cons_self⟩
  | _ => exact ht.own.elim

theorem Begins.ends {m : Ty} {tail : List Char} (h : Begins i t m tail) (hx : Closes x) : Ends (tail ++ x) := by
  cases h with
  | word => exact hx.ends
  | func => exact fun c hc => .inl (Option.some.inj hc).symm
  | union => exact fun c hc => .inl (Option.some.inj hc).symm

theorem ends_members (hx : Closes x) (ms : List Ty) :
    Ends (members i ms ++ x) := by
  cases ms with
  | nil => exact hx.ends
  | cons => exact fun c hc => .inl (Option.some.inj hc).symm

/-- Members of two unions, given that each can be told from whatever stands in its place. -/
theorem alike_of_members {ms ns : List Ty} (hms : ∀ m ∈ ms, m.Legible) (hns : ∀ n ∈ ns, n.Legible) (hx : Closes x)
    (hy : Closes y)
    (ih : ∀ m ∈ ms, ∀ {n x y}, Legible n → Closes x → Closes y → spelled i m ++ x = spelled j n ++ y →
      Alike (fun v w => i v = j w) m n ∧ x = y)
    (h : members i ms ++ x = members j ns ++ y) :
    Forall₂ (Alike fun v w => i v = j w) ms ns ∧ x = y := by
  induction ms generalizing ns with
  | nil =>
    cases ns with
    | nil => exact ⟨.nil, h⟩
    | cons n ns => exact absurd h hx.ne_blank
  | cons m ms ihms =>
    cases ns with
    | nil => exact absurd h.symm hy.ne_blank
    | cons n ns =>
      obtain ⟨hm, hms⟩ := forall_mem_cons.mp hms
      obtain ⟨hn, hns⟩ := forall_mem_cons.mp hns
      obtain ⟨ihm, ih⟩ := forall_mem_cons.mp ih
      simp only [members, flatMap_cons, cons_append, append_assoc, List.cons.injEq, true_and] at h
      obtain ⟨hmn, hrest⟩ := alike_of_operand hm hn (ends_members hx ms) (ends_members hy ns) (fun _ => ihm hn) h
      obtain ⟨hmsns, hxy⟩ := ihms hms hns ih hrest
      exact ⟨.cons hmn hmsns, hxy⟩

/-- **The notation is unambiguous**: from a text and what follows it, the type can be read off up to the variables
    behind the letters. -/
theorem alike_of_spelled (ht : t.Legible) (hu : u.Legible) (hx : Closes x) (hy : Closes y)
    (h : spelled i t ++ x = spelled j u ++ y) : Alike (fun v w => i v = j w) t u ∧ x = y := by
  induction t using Ty.childwise generalizing u x y with
  | step t ih =>
    obtain ⟨m, tail, hm, hspelled, hmleg⟩ := ht.begins i
    obtain ⟨n, tail', hn, hspelled', hnleg⟩ := hu.begins j
    rw [hspelled, hspelled', append_assoc, append_assoc] at h
    have hoperand : m.compound = true → ∀ {x y}, Closes x → Closes y →
        spelled i m ++ x = spelled j n ++ y → Alike (fun v w => i v = j w) m n ∧ x = y := by
      intro hcompound x y hx hy heq
      cases hm with
      | word hword => cases hword.symm.trans hcompound
      | func a r => exact ih m (by simp [children]) hmleg hnleg hx hy heq
      | union m n ms => exact ih m mem_cons_self hmleg hnleg hx hy heq
    obtain ⟨hmn, hrest⟩ := alike_of_operand hmleg hnleg (hm.ends hx) (hn.ends hy) hoperand h
    cases hm with
    | word =>
      cases hn with
      | word => exact ⟨hmn, hrest⟩
      | func => exact absurd hrest hx.ne_blank
      | union => exact absurd hrest hx.ne_blank
    | func a r =>
      cases hn with
      | word => exact absurd hrest.symm hy.ne_blank
      | func b s =>
        simp only [cons_append, List.cons.injEq, true_and] at hrest
        have hr := ih r (by simp [children]) (ht.child (by simp [children])) (hu.child (by simp [children])) hx hy hrest
        exact ⟨.func hmn hr.1, hr.2⟩
      | union => simp [members] at hrest
    | union m m' ms =>
      cases hn with
      | word => exact absurd hrest.symm hy.ne_blank
      | func => simp [members] at hrest
      | union n n' ns =>
        obtain ⟨hmembers, hxy⟩ := alike_of_members (fun m h => ht.child (mem_cons_of_mem _ h))
          (fun n h => hu.child (mem_cons_of_mem _ h)) hx hy
          (fun m h _ _ _ hn hx hy heq => ih m (mem_cons_of_mem _ h) (ht.child (mem_cons_of_mem _ h)) hn hx hy heq)
          hrest
        exact ⟨.union (.cons hmn hmembers), hxy⟩

/-! ## Renamed types -/

theorem alike_relabel (ρ : TyVar → TyVar) (ht : t.Legible) : Alike (fun v w => ρ v = w) t (t.relabel ρ) := by
  induction t using Ty.structural with
  | simple n => exact .simple n
  | func a r iha ihr => exact .func (iha (ht.child (by simp [children]))) (ihr (ht.child (by simp [children])))
  | union ms ih =>
    rw [relabel, relabelList_eq_map]
    exact .union (forall₂_map_right_iff.mpr (forall₂_same.mpr fun m hm => ih m hm (ht.child hm)))
  | var v => exact .var rfl
  | _ => exact ht.own.elim

theorem spelled_of_alike (h : Alike (fun v w => i v = j w) t u) : spelled i t = spelled j u := by
  refine congrArg String.toList (h.structural (motive := fun t u =>
    (t.relabel fun v => ⟨v.id, letterName (i v)⟩).text = (u.relabel fun v => ⟨v.id, letterName (j v)⟩).text)
    (fun _ => rfl) ?func ?union ?var)
  case func =>
    intro a b r s hab _ iha ihr
    have hisUnion : a.isUnion = b.isUnion := by
      cases hab <;> rfl
    simp [relabel, text, isFunc_relabel, isUnion_relabel, iha, ihr, hab.isFunc, hisUnion]
  case union =>
    intro xs ys hxs ih
    simp only [relabel, text]
    congr 1
    induction hxs with
    | nil => rfl
    | cons hxy _ ihxs =>
      obtain ⟨hhead, htail⟩ := forall₂_cons.mp ih
      simp [relabelList, textMembers, isFunc_relabel, hhead, hxy.isFunc, ihxs htail]
  case var =>
    intro v w hvw
    simp [relabel, text, hvw]

/-- The place of a variable by first appearance. -/
def place (t : Ty) (v : TyVar) : Nat :=
  t.vars.eraseDups.idxOf v

/-- **Renamed types** are those whose variables appear in the same order. -/
theorem alike_place_iff (ht : t.Legible) : Alike (fun v w => t.place v = u.place w) t u ↔
    ∃ ρ : TyVar → TyVar, Set.InjOn ρ {v | v ∈ t.vars} ∧ u = t.relabel ρ := by
  constructor
  · intro h
    have hrestricted := h.restrict
    -- A variable is renamed to the one that is listed in its place.
    let ρ (v : TyVar) : TyVar := u.vars.eraseDups[t.place v]?.getD v
    have hρ : ∀ v w, t.place v = u.place w ∧ v ∈ t.vars ∧ w ∈ u.vars → ρ v = w := by
      rintro v w ⟨hvw, -, hw⟩
      simp only [ρ, hvw]
      rw [place, getElem?_idxOf (mem_eraseDups.mpr hw), Option.getD_some]
    refine ⟨ρ, fun v hv v' hv' heq => ?_, ?_⟩
    · have hpartner := forall_of_forall₂ (P := fun v => ∃ w, t.place v = u.place w ∧ v ∈ t.vars ∧ w ∈ u.vars)
        hrestricted.vars fun v w h => ⟨w, h⟩
      obtain ⟨w, hw⟩ := hpartner v hv
      obtain ⟨w', hw'⟩ := hpartner v' hv'
      have hsame : w = w' := (hρ v w hw).symm.trans (heq.trans (hρ v' w' hw'))
      exact (idxOf_inj (mem_eraseDups.mpr hv)).mp (hw.1.trans (hsame ▸ hw'.1.symm))
    · exact Alike.rightUnique (fun _ _ _ h h' => h.symm.trans h') (hrestricted.mono hρ) (alike_relabel ρ ht)
  · rintro ⟨ρ, hρ, rfl⟩
    have halike := alike_relabel ρ ht
    have hvars : (t.relabel ρ).vars = t.vars.map ρ := by
      have hmap := forall₂_map_left_iff.mpr halike.vars
      rw [forall₂_eq_eq_eq] at hmap
      exact hmap.symm
    refine halike.restrict.mono fun v w hvw => ?_
    obtain ⟨rfl, hv, -⟩ := hvw
    have hnodup : (t.vars.eraseDups.map ρ).Nodup := by
      rw [← eraseDups_map fun v hv w hw h => hρ hv hw h]
      exact nodup_eraseDups _
    obtain ⟨k, hk, hkv⟩ := getElem_of_mem (mem_eraseDups.mpr hv)
    have hmapped := hnodup.idxOf_getElem k (by simpa using hk)
    rw [getElem_map, hkv] at hmapped
    rw [place, place, hvars, eraseDups_map fun v hv w hw h => hρ hv hw h, hmapped, ← hkv,
      (nodup_eraseDups t.vars).idxOf_getElem]

theorem Legible.unescaped (ht : t.Legible) : t.Unescaped fun _ => "" := by
  intro u hu n hn
  have hlegible := ht u hu
  cases u with
  | simple m =>
    rw [mem_singleton.mp hn]
    exact fun hmem => of_decide_eq_true (all_eq_true.mp hlegible.2 _ hmem) (by simp)
  | var v =>
    rw [mem_singleton.mp hn]
    exact not_mem_nil
  | func a r => cases hn
  | union ms => cases hn
  | _ => exact hlegible.elim

end Ty

/-- **Signatures are faithful**: two types of programs are shown alike exactly if one is the other with its free
    variables renamed one to one. -/
theorem signatures_faithful {a b : Arena} {t u : Ty} (ht : (a.expose t).Legible) (hu : (b.expose u).Legible)
    (htvars : (a.expose t).Numbered) (huvars : (b.expose u).Numbered) :
    (a.generalized t).plain = (b.generalized u).plain ↔
      ∃ ρ : TyVar → TyVar, Set.InjOn ρ {v | v ∈ (a.expose t).vars} ∧ b.expose u = (a.expose t).relabel ρ := by
  rw [(a.shows_generalized ht.unescaped htvars).plain, (b.shows_generalized hu.unescaped huvars).plain,
    ← Ty.alike_place_iff ht, ← String.toList_inj]
  constructor
  · intro h
    exact (Ty.alike_of_spelled (x := []) (y := []) ht hu (fun _ hc => by cases hc) (fun _ hc => by cases hc)
      (congrArg (· ++ []) h)).1
  · exact fun h => Ty.spelled_of_alike h

/-- A function among the members of a union, and variables of other numbers in the other type. -/
theorem signatures_faithful_nested :
    let t : Ty := .func (.var ⟨2, "x"⟩) (.union [.func (.var ⟨3, "y"⟩) .integer, .var ⟨2, "x"⟩])
    let u : Ty := .func (.var ⟨5, "z"⟩) (.union [.func (.var ⟨2, "x"⟩) .integer, .var ⟨5, "z"⟩])
    let a : Arena := {}
    (a.expose t).Legible ∧ (a.expose u).Legible ∧ (a.expose t).Numbered ∧ (a.expose u).Numbered ∧
      ∃ ρ : TyVar → TyVar, Set.InjOn ρ {v | v ∈ (a.expose t).vars} ∧ a.expose u = (a.expose t).relabel ρ := by
  intro t u a
  have ht : (a.expose t).Legible := by decide +kernel
  have hu : (a.expose u).Legible := by decide +kernel
  have htvars : (a.expose t).Numbered := by decide +kernel
  have huvars : (a.expose u).Numbered := by decide +kernel
  exact ⟨ht, hu, htvars, huvars, (signatures_faithful ht hu htvars huvars).mp (by decide +kernel)⟩

/-- **Signatures can mislead.** What follows an escape character in a name is not shown, so two names look the same; and
    variables that share a number get one letter, so a type looks different from the one that it is a renaming of. -/
theorem signatures_can_mislead :
    let hidden : Ty := .simple "A\x1bB"
    let apart : Ty := .func (.var ⟨2, "x"⟩) (.var ⟨3, "y"⟩)
    let shared : Ty := .func (.var ⟨2, "x"⟩) (.var ⟨2, "y"⟩)
    (Ty.simple "A").generalizedText = hidden.generalizedText ∧ (∀ ρ, hidden ≠ (Ty.simple "A").relabel ρ) ∧
      (∃ ρ : TyVar → TyVar, Set.InjOn ρ {v | v ∈ apart.vars} ∧ shared = apart.relabel ρ) ∧
      apart.generalizedText ≠ shared.generalizedText := by
  intro hidden apart shared
  have hnames : ∀ v ∈ apart.vars, ∀ w ∈ apart.vars, v.name = w.name → v = w := by decide
  refine ⟨by decide +kernel, fun ρ h => absurd (Ty.simple.inj h) (by decide), ⟨fun v => ⟨2, v.name⟩, ?_, rfl⟩,
    by decide +kernel⟩
  exact fun v hv w hw h => hnames v hv w hw (TyVar.mk.inj h).2

end UnionTyping
