import UnionTyping.Proofs.Derivation

/-!
# `Proofs.Scanning` — what parsers do on texts of a known shape

`p.Takes P cs ds` and `p.Refuses cs` are the two outcomes of a parser at the start of the text `cs`: it reads up to
`ds` and what it gives has the property `P`, or it fails. Both leave out at which offset the text starts and what is
reported, and both have one rule per combinator, so what a rule of the grammar does on a text is put together from
what its tokens do.

Where a word ends and which word it is decide between the alternatives of the grammar. Both are said about the text
as a whole: `headIs` about its first character and `lead` about the word it starts with.
-/

namespace UnionTyping

open List

namespace Grammar

namespace Parse

variable {α β : Type}

/-- **The parser reads from `cs` up to `ds`**, and what it gives has the property. -/
def Takes (p : Parse α) (P : α → Prop) (cs ds : List Char) : Prop :=
  ∀ offset, ∃ a stop, (p ⟨offset, cs⟩).result = some (a, ⟨stop, ds⟩) ∧ P a

/-- The parser reads from `cs` up to `ds`. -/
abbrev Passes (p : Parse α) (cs ds : List Char) : Prop :=
  p.Takes (fun _ => True) cs ds

/-- **The parser fails on `cs`.** -/
def Refuses (p : Parse α) (cs : List Char) : Prop :=
  ∀ offset, (p ⟨offset, cs⟩).result = none

/-! ## Combined parsers -/

variable {cs ds es : List Char} {ι : Type} {P : α → Prop} {Q : β → Prop}

section Combined

variable {p : Parse α} {f : α → Parse β}

theorem Takes.mono {R : α → Prop} (h : p.Takes P cs ds) (himp : ∀ a, P a → R a) : p.Takes R cs ds := by
  intro offset
  obtain ⟨a, stop, hread, ha⟩ := h offset
  exact ⟨a, stop, hread, himp a ha⟩

theorem Takes.passes (h : p.Takes P cs ds) : p.Passes cs ds :=
  h.mono fun _ _ => trivial

/-- A parser does not do both. -/
theorem Takes.not_refuses (h : p.Takes P cs ds) : ¬ p.Refuses cs := by
  intro hrefuses
  obtain ⟨a, stop, hread, -⟩ := h 0
  rw [hrefuses 0] at hread
  cases hread

theorem Takes.pure {a : α} (h : P a) : (pure a : Parse α).Takes P cs cs :=
  fun offset => ⟨a, offset, rfl, h⟩

theorem Takes.bind (hp : p.Takes P cs ds) (hf : ∀ a, P a → (f a).Takes Q ds es) :
    (p >>= f).Takes Q cs es := by
  intro offset
  obtain ⟨a, middle, hread, ha⟩ := hp offset
  obtain ⟨b, stop, hthen, hb⟩ := hf a ha middle
  exact ⟨b, stop, bind_reads.mpr ⟨a, _, hread, hthen⟩, hb⟩

/-- Without a property of what is read first. -/
theorem Takes.after (hp : p.Passes cs ds) (hf : ∀ a, (f a).Takes Q ds es) :
    (p >>= f).Takes Q cs es :=
  hp.bind fun a _ => hf a

theorem Takes.orElse {p q : Parse α} (hp : p.Takes P cs ds) : (p <|> q).Takes P cs ds := by
  intro offset
  obtain ⟨a, stop, hread, ha⟩ := hp offset
  exact ⟨a, stop, orElse_reads.mpr (.inl hread), ha⟩

theorem Takes.quiet (hp : p.Takes P cs ds) : p.quiet.Takes P cs ds :=
  fun offset => hp offset

theorem Takes.optional (hp : p.Takes P cs ds) : p.optional.Takes (fun o => ∃ a, o = some a ∧ P a) cs ds :=
  .orElse (.bind hp fun a ha => .pure ⟨a, rfl, ha⟩)

theorem Refuses.bind (hp : p.Refuses cs) : (p >>= f).Refuses cs := by
  intro offset
  rw [result_bind, hp offset, Option.bind_none]

/-- The second parser fails on what the first one leaves. -/
theorem Refuses.after (hp : p.Takes P cs ds) (hf : ∀ a, P a → (f a).Refuses ds) :
    (p >>= f).Refuses cs := by
  intro offset
  obtain ⟨a, middle, hread, ha⟩ := hp offset
  rw [result_bind, hread, Option.bind_some, hf a ha middle]

/-- The second alternative is what counts where the first one fails. -/
theorem Takes.otherwise {p q : Parse α} (hp : p.Refuses cs) (hq : q.Takes P cs ds) : (p <|> q).Takes P cs ds := by
  intro offset
  obtain ⟨a, stop, hread, ha⟩ := hq offset
  exact ⟨a, stop, orElse_reads.mpr (.inr ⟨hp offset, hread⟩), ha⟩

theorem Refuses.orElse {p q : Parse α} (hp : p.Refuses cs) (hq : q.Refuses cs) : (p <|> q).Refuses cs := by
  intro offset
  rw [result_orElse, hp offset, hq offset, Option.or_none]

theorem Refuses.fail : (fail : Parse α).Refuses cs :=
  fun _ => rfl

theorem Refuses.expected (token : String) : (expected token : Parse α).Refuses cs :=
  fun _ => rfl

theorem Refuses.quiet (hp : p.Refuses cs) : p.quiet.Refuses cs :=
  fun offset => hp offset

theorem Refuses.optional (hp : p.Refuses cs) : p.optional.Takes (· = none) cs cs :=
  .otherwise (.bind hp) (.pure rfl)

theorem Refuses.firstOf {ps : List (Parse α)} (h : ∀ p ∈ ps, p.Refuses cs) : (firstOf ps).Refuses cs := by
  induction ps with
  | nil => exact .fail
  | cons p ps ih => exact .orElse (h p mem_cons_self) (ih fun q hq => h q (mem_cons_of_mem p hq))

/-- An alternative counts where all before it fail; those behind it do not matter. -/
theorem Takes.firstOf [DecidableEq ι] {f : ι → Parse α} {x : ι} {xs : List ι} (hx : x ∈ xs)
    (hbefore : ∀ y ∈ xs.takeWhile (· != x), (f y).Refuses cs) (h : (f x).Takes P cs ds) :
    (firstOf (xs.map f)).Takes P cs ds := by
  induction xs with
  | nil => cases hx
  | cons y ys ih =>
    by_cases hyx : y = x
    · exact hyx ▸ .orElse h
    · have htake : (y :: ys).takeWhile (· != x) = y :: ys.takeWhile (· != x) := by
        rw [takeWhile_cons, if_pos (bne_iff_ne.mpr hyx)]
      rw [htake] at hbefore
      have hys : x ∈ ys := (mem_cons.mp hx).resolve_left (Ne.symm hyx)
      refine .otherwise (hbefore y mem_cons_self) (ih hys fun z hz => ?_)
      exact hbefore z (mem_cons_of_mem y hz)

/-- Where some alternatives are left out, those before one of the others were before it already. -/
theorem mem_takeWhile_filter [DecidableEq ι] {p : ι → Bool} {x y : ι} {xs : List ι} (hx : p x = true)
    (hy : y ∈ (xs.filter p).takeWhile (· != x)) : y ∈ xs.takeWhile (· != x) := by
  induction xs with
  | nil => cases hy
  | cons z zs ih =>
    by_cases hz : z = x
    · subst hz
      rw [filter_cons_of_pos hx, takeWhile_cons_of_neg (by simp)] at hy
      cases hy
    · rw [takeWhile_cons_of_pos (by simpa using hz)]
      cases hpz : p z with
      | false =>
        rw [filter_cons_of_neg (by simp [hpz])] at hy
        exact mem_cons_of_mem z (ih hy)
      | true =>
        rw [filter_cons_of_pos hpz, takeWhile_cons_of_pos (by simpa using hz)] at hy
        rcases mem_cons.mp hy with rfl | hy
        · exact mem_cons_self
        · exact mem_cons_of_mem z (ih hy)

theorem Refuses.notFollowedBy (hp : p.Refuses cs) : p.notFollowedBy.Passes cs cs := by
  intro offset
  refine ⟨(), offset, ?_, trivial⟩
  rw [Parse.notFollowedBy, hp offset]

theorem Takes.notFollowedBy (hp : p.Takes P cs ds) : p.notFollowedBy.Refuses cs := by
  intro offset
  obtain ⟨a, stop, hread, -⟩ := hp offset
  rw [Parse.notFollowedBy, hread]

/-- Repeating ends where the parser fails. -/
theorem Refuses.manyWithin (hp : p.Refuses cs) (limit : Nat) :
    (p.manyWithin limit).Takes (· = []) cs cs := by
  cases limit with
  | zero => exact .pure rfl
  | succ limit => exact .otherwise (.bind hp) (.pure rfl)

theorem Takes.manyWithin {R : List α → Prop} {limit : Nat} (hp : p.Takes P cs ds)
    (hrest : (p.manyWithin limit).Takes R ds es) :
    (p.manyWithin (limit + 1)).Takes (fun as => ∃ a rest, as = a :: rest ∧ P a ∧ R rest) cs es :=
  .orElse (.bind hp fun a ha => .bind hrest fun rest hr => .pure ⟨a, rest, rfl, ha, hr⟩)

theorem Takes.many {R : List α → Prop} (h : (p.manyWithin (cs.length + 1)).Takes R cs ds) :
    p.many.Takes R cs ds :=
  fun offset => h offset

/-- A whole text is read if the parser reads it to its end. -/
theorem Takes.run {text : String} (h : p.Takes P text.toList []) : ∃ a, p.run text = .ok a ∧ P a := by
  obtain ⟨a, stop, hread, ha⟩ := h 0
  exact ⟨a, run_of_reads hread, ha⟩

end Combined

/-! ## Characters -/

variable {c : Cursor}

/-- Whether the text starts with a character of the class. -/
def headIs (p : Char → Bool) : List Char → Bool
  | [] => false
  | c :: _ => p c

variable {p : Char → Bool} {xs : List Char}

theorem takeWhile_stop (h : headIs p cs = false) : cs.takeWhile p = [] := by
  cases cs with
  | nil => rfl
  | cons c cs =>
    have hc : p c = false := h
    rw [takeWhile_cons, hc, if_neg Bool.false_ne_true]

theorem dropWhile_stop (h : headIs p cs = false) : cs.dropWhile p = cs := by
  cases cs with
  | nil => rfl
  | cons c cs =>
    have hc : p c = false := h
    rw [dropWhile_cons, hc, if_neg Bool.false_ne_true]

theorem takeWhile_append_stop (hxs : ∀ x ∈ xs, p x = true) (h : headIs p cs = false) : (xs ++ cs).takeWhile p = xs := by
  rw [takeWhile_append_of_pos hxs, takeWhile_stop h, append_nil]

theorem dropWhile_append_stop (hxs : ∀ x ∈ xs, p x = true) (h : headIs p cs = false) : (xs ++ cs).dropWhile p = cs := by
  rw [dropWhile_append_of_pos hxs, dropWhile_stop h]

theorem position_passes : position.Passes cs cs :=
  fun offset => ⟨offset, offset, rfl, trivial⟩

theorem char_takes {x : Char} (h : p x = true) : (char p).Takes (· = x) (x :: cs) cs := by
  intro offset
  refine ⟨x, offset + x.utf8Size, ?_, rfl⟩
  simp [char, h]

theorem char_refuses (h : headIs p cs = false) : (char p).Refuses cs := by
  intro offset
  cases cs with
  | nil => rfl
  | cons x cs =>
    have hx : p x = false := h
    simp [char, hx]

theorem readWhile_eq (p : Char → Bool) (offset : Nat) (cs : List Char) :
    ∃ stop, readWhile p offset cs = (cs.takeWhile p, ⟨stop, cs.dropWhile p⟩) := by
  induction cs generalizing offset with
  | nil => exact ⟨offset, rfl⟩
  | cons x rest ih =>
    obtain ⟨stop, hstop⟩ := ih (offset + x.utf8Size)
    rw [readWhile, takeWhile_cons, dropWhile_cons]
    split
    · exact ⟨stop, by rw [hstop]⟩
    · exact ⟨offset, rfl⟩

/-- The longest run of the class is read, whatever it is. -/
theorem chars_takes_all (p : Char → Bool) (cs : List Char) :
    (chars p).Takes (· = cs.takeWhile p) cs (cs.dropWhile p) := by
  intro offset
  obtain ⟨stop, hstop⟩ := readWhile_eq p offset cs
  exact ⟨_, stop, congrArg some hstop, rfl⟩

theorem chars_takes (hxs : ∀ x ∈ xs, p x = true) (h : headIs p cs = false) :
    (chars p).Takes (· = xs) (xs ++ cs) cs := by
  have hall := chars_takes_all p (xs ++ cs)
  rwa [takeWhile_append_stop hxs h, dropWhile_append_stop hxs h] at hall

theorem chars1_takes (hne : xs ≠ []) (hxs : ∀ x ∈ xs, p x = true) (h : headIs p cs = false) :
    (chars1 p).Takes (· = xs) (xs ++ cs) cs := by
  obtain ⟨x, xs, rfl⟩ := exists_cons_of_ne_nil hne
  obtain ⟨hx, hxs⟩ := forall_mem_cons.mp hxs
  exact .bind (char_takes hx) fun _ hy => .bind (chars_takes hxs h) fun _ hys => .pure (by rw [hy, hys])

theorem chars1_refuses (h : headIs p cs = false) : (chars1 p).Refuses cs :=
  .bind (char_refuses h)

theorem dropExact_append (offset : Nat) (text cs : List Char) :
    ∃ stop, dropExact offset text (text ++ cs) = some ⟨stop, cs⟩ := by
  induction text generalizing offset with
  | nil => exact ⟨offset, rfl⟩
  | cons x text ih =>
    rw [cons_append, dropExact, if_pos rfl]
    exact ih _

theorem exact_takes (text : String) (cs : List Char) : (exact text).Passes (text.toList ++ cs) cs := by
  intro offset
  obtain ⟨stop, hstop⟩ := dropExact_append offset text.toList cs
  exact ⟨(), stop, by rw [exact, hstop], trivial⟩

theorem exact_refuses {text : String} (h : ¬ text.toList <+: cs) : (exact text).Refuses cs := by
  intro offset
  cases hrun : (exact text ⟨offset, cs⟩).result with
  | none => rfl
  | some r => exact absurd ⟨r.2.rest, (exact_reads hrun).symm⟩ h

theorem chars1_reads {d : Cursor} (h : (chars1 p c).result = some (xs, d)) :
    c.rest = xs ++ d.rest ∧ xs ≠ [] ∧ ∀ x ∈ xs, p x = true := by
  obtain ⟨x, c₁, hx, h⟩ := bind_reads.mp h
  obtain ⟨ys, c₂, hys, h⟩ := bind_reads.mp h
  obtain ⟨rfl, rfl⟩ := pure_reads.mp h
  refine ⟨?_, cons_ne_nil x ys, forall_mem_cons.mpr ⟨char_yields p _ _ _ hx, chars_yields p _ _ _ hys⟩⟩
  have hrest : c₁.rest = ys ++ c₂.rest := by
    have happend := readWhile_append p c₁.offset c₁.rest
    injection hys with hys
    rw [hys] at happend
    exact happend.symm
  unfold char at hx
  split at hx
  · rename_i y rest hc
    split at hx
    · injection hx with hx
      injection hx with hyx hc₁
      rw [hc, hyx, cons_append, ← hrest, ← hc₁]
    · cases hx
  · cases hx

end Parse

open Parse

/-! ## Blanks -/

variable {cs : List Char}

theorem blanks_all (cs : List Char) : blanks.Passes cs (cs.dropWhile isSpace) :=
  .after (chars_takes_all isSpace cs).passes fun _ => .pure trivial

theorem blanks_none (h : headIs isSpace cs = false) : blanks.Passes cs cs := by
  have hall := blanks_all cs
  rwa [dropWhile_stop h] at hall

theorem blanks_one (h : headIs isSpace cs = false) : blanks.Passes (' ' :: cs) cs := by
  have hall : blanks.Passes (' ' :: cs) (cs.dropWhile isSpace) := blanks_all (' ' :: cs)
  rwa [dropWhile_stop h] at hall

theorem blanks1_one (h : headIs isSpace cs = false) : blanks1.Passes (' ' :: cs) cs := by
  have hchars : (chars1 isSpace).Takes (· = [' ']) ([' '] ++ cs) cs :=
    chars1_takes (cons_ne_nil _ _) (forall_mem_singleton.mpr rfl) h
  exact .after hchars.passes fun _ => .pure trivial

theorem blanks1_refuses (h : headIs isSpace cs = false) : blanks1.Refuses cs :=
  .bind (chars1_refuses h)

/-! ## Words -/

variable {w : String}

/-- The word, or what looks like the rest of one, that the text starts with. -/
def lead (cs : List Char) : String :=
  String.ofList (cs.takeWhile isWordRest)

theorem all_of_isWord (hw : isWord w = true) : ∀ c ∈ w.toList, isWordRest c = true := by
  unfold isWord at hw
  split at hw
  · cases hw
  · rename_i c cs htext
    rw [Bool.and_eq_true, all_eq_true] at hw
    rw [htext, forall_mem_cons]
    exact ⟨by simp [isWordRest, hw.1], hw.2⟩

theorem isWordStart_append (hw : isWord w = true) : headIs isWordStart (w.toList ++ cs) = true := by
  unfold isWord at hw
  split at hw
  · cases hw
  · rename_i c rest htext
    rw [htext]
    exact (Bool.and_eq_true_iff.mp hw).1

theorem lead_append (hw : isWord w = true) (h : headIs isWordRest cs = false) : lead (w.toList ++ cs) = w := by
  rw [lead, takeWhile_append_stop (all_of_isWord hw) h, String.ofList_toList]

/-- A text that starts with no word. -/
theorem isWord_lead (h : headIs isWordStart cs = false) : isWord (lead cs) = false := by
  cases cs with
  | nil => rfl
  | cons c cs =>
    have hc : isWordStart c = false := h
    cases hrest : isWordRest c <;> simp [isWord, lead, hrest, hc]

theorem isWord_of_isName (hw : isName w = true) : isWord w = true :=
  (Bool.and_eq_true_iff.mp hw).1

theorem isName_eq_false (hw : isWord w = false) : isName w = false := by
  rw [isName, hw, Bool.false_and]

theorem word_takes (hw : isWord w = true) (h : headIs isWordRest cs = false) :
    word.Takes (· = w) (w.toList ++ cs) cs := by
  unfold isWord at hw
  split at hw
  · cases hw
  · rename_i c rest htext
    rw [Bool.and_eq_true, all_eq_true] at hw
    rw [htext]
    refine .bind (char_takes hw.1) fun _ hc => .bind (chars_takes hw.2 h) fun _ hrest => .pure ?_
    rw [hc, hrest, ← htext, String.ofList_toList]

theorem name_takes (hw : isName w = true) (h : headIs isWordRest cs = false) :
    name.Takes (· = w) (w.toList ++ cs) cs := by
  rw [isName, Bool.and_eq_true, Bool.not_eq_true'] at hw
  refine .orElse (.quiet (.bind (word_takes hw.1 h) ?_))
  rintro _ rfl
  rw [if_neg (by rw [hw.2]; exact Bool.false_ne_true)]
  exact .pure rfl

theorem ident_takes (source : Nat) (hw : isName w = true) (h : headIs isWordRest cs = false) :
    (ident source).Takes (fun x => x.name = w) (w.toList ++ cs) cs :=
  .after position_passes fun _ => .bind (name_takes hw h) fun _ hn => .after position_passes fun _ => .pure hn

/-- No name is read where the text starts with none. -/
theorem name_refuses (h : isName (lead cs) = false) : name.Refuses cs := by
  refine .orElse (.quiet ?_) (.expected _)
  cases hstart : headIs isWordStart cs with
  | false => exact .bind (.bind (char_refuses hstart))
  | true =>
    cases cs with
    | nil => cases hstart
    | cons c cs =>
      have hc : isWordStart c = true := hstart
      have hrest : isWordRest c = true := by simp [isWordRest, hc]
      have hlead : lead (c :: cs) = String.ofList (c :: cs.takeWhile isWordRest) := by
        rw [lead, takeWhile_cons, if_pos hrest]
      have hword : isWord (lead (c :: cs)) = true := by
        rw [hlead, isWord, String.toList_ofList, Bool.and_eq_true, all_eq_true]
        exact ⟨hc, all_eq_true.mp all_takeWhile⟩
      have htakes : word.Takes (· = lead (c :: cs)) (c :: cs) (cs.dropWhile isWordRest) :=
        .bind (char_takes hc) fun _ hx => .bind (chars_takes_all isWordRest cs) fun _ hxs =>
          .pure (by rw [hx, hxs, hlead])
      rw [isName, hword, Bool.true_and, Bool.not_eq_false'] at h
      refine .after htakes ?_
      rintro _ rfl
      rw [if_pos h]
      exact .fail

theorem ident_refuses (source : Nat) (h : isName (lead cs) = false) : (ident source).Refuses cs :=
  .after position_passes fun _ _ => .bind (name_refuses h)

theorem keyword_takes (w : String) (h : headIs isWordRest cs = false) : (keyword w).Passes (w.toList ++ cs) cs :=
  .after (exact_takes w cs) fun _ => (char_refuses h).notFollowedBy

/-- A keyword is refused where the text starts with any other word, be it a longer one. -/
theorem keyword_refuses (hw : isWord w = true) (h : lead cs ≠ w) : (keyword w).Refuses cs := by
  by_cases hstarts : w.toList <+: cs
  · obtain ⟨rest, rfl⟩ := hstarts
    refine .after (exact_takes w rest) fun _ _ => ?_
    cases rest with
    | nil => exact absurd (lead_append hw rfl) h
    | cons c rest =>
      cases hc : isWordRest c with
      | false =>
        have hstop : headIs isWordRest (c :: rest) = false := hc
        exact absurd (lead_append hw hstop) h
      | true => exact (char_takes hc).notFollowedBy
  · exact .bind (exact_refuses hstarts)

/-! ## Paths -/

/-- What cannot go on with a word, a number or a path. -/
def goesOn (c : Char) : Bool :=
  isWordRest c || c == '.'

theorem isWordRest_of_goesOn (h : headIs goesOn cs = false) : headIs isWordRest cs = false := by
  cases cs with
  | nil => rfl
  | cons c cs => exact (Bool.or_eq_false_iff.mp h).1

/-- Whether the text starts with a point and a character of the class behind it. -/
def followsPoint (p : Char → Bool) : List Char → Bool
  | '.' :: x :: _ => p x
  | _ => false

theorem followsPoint_of_goesOn (p : Char → Bool) (h : headIs goesOn cs = false) : followsPoint p cs = false := by
  unfold followsPoint
  split
  · cases h
  · rfl

theorem followsPoint_cons (p : Char → Bool) (cs : List Char) : followsPoint p ('.' :: cs) = headIs p cs := by
  cases cs <;> rfl

/-- What starts with a character of the class is not read behind a point. -/
theorem point_bind_refuses {α : Type} {p : Char → Bool} {f : Unit → Parse α}
    (hf : ∀ u cs, headIs p cs = false → (f u).Refuses cs) (h : followsPoint p cs = false) :
    (exact "." >>= f).Refuses cs := by
  by_cases hstarts : ".".toList <+: cs
  · obtain ⟨rest, rfl⟩ := hstarts
    have hrest : headIs p rest = false := (followsPoint_cons p rest).symm.trans h
    exact .after (exact_takes "." rest) fun u _ => hf u rest hrest
  · exact .bind (exact_refuses hstarts)

/-- The further words of a path, each behind its point. -/
def pointed (rest : List String) : List Char :=
  rest.flatMap fun w => '.' :: w.toList

theorem toList_intercalate_cons (separator first : String) (rest : List String) :
    (separator.intercalate (first :: rest)).toList =
      first.toList ++ rest.flatMap fun w => separator.toList ++ w.toList := by
  induction rest generalizing first with
  | nil => simp
  | cons w rest ih =>
    have hw := ih w
    rw [String.toList_intercalate, map_cons] at hw ⊢
    rw [map_cons, intercalate_cons_cons, hw]
    simp

theorem toList_text_pathOf (first : String) (rest : List String) :
    (pathOf first rest).text.toList = first.toList ++ pointed rest := by
  obtain rfl | ⟨init, last, rfl⟩ := eq_nil_or_concat rest
  · simp [pathOf, Path.text, pointed]
  · have htext : (pathOf first (init ++ [last])).text = ".".intercalate (first :: init) ++ "." ++ last := by
      simp [pathOf, Path.text]
    rw [concat_eq_append, htext, String.toList_append, String.toList_append, toList_intercalate_cons]
    simp [pointed]

/-- Where each item makes for at least one element, there are at least as many as there are items. -/
theorem length_le_flatMap {α β : Type} {f : α → List β} (hf : ∀ x, f x ≠ []) (xs : List α) :
    xs.length ≤ (xs.flatMap f).length := by
  induction xs with
  | nil => exact Nat.le_refl 0
  | cons x xs ih =>
    have hpos := length_pos_iff.mpr (hf x)
    rw [flatMap_cons, length_append, length_cons]
    omega

theorem pointed_stops (rest : List String) (h : headIs isWordRest cs = false) :
    headIs isWordRest (pointed rest ++ cs) = false := by
  cases rest with
  | nil => exact h
  | cons w rest => rfl

theorem pointed_takes {rest : List String} {limit : Nat} (hrest : ∀ w ∈ rest, isWord w = true)
    (hlimit : rest.length ≤ limit) (h : headIs isWordRest cs = false)
    (hpoint : followsPoint isWordStart cs = false) :
    (manyWithin (do exact "."; word) limit).Takes (· = rest) (pointed rest ++ cs) cs := by
  induction rest generalizing limit with
  | nil => exact Refuses.manyWithin (point_bind_refuses (fun _ _ h => .bind (char_refuses h)) hpoint) limit
  | cons w rest ih =>
    obtain ⟨hw, hrest⟩ := forall_mem_cons.mp hrest
    obtain ⟨limit, rfl⟩ : ∃ n, limit = n + 1 := ⟨limit - 1, by simp at hlimit; omega⟩
    have htext : pointed (w :: rest) ++ cs = '.' :: (w.toList ++ (pointed rest ++ cs)) := by
      simp [pointed]
    have hone : (do exact "."; word : Parse String).Takes (· = w) ('.' :: (w.toList ++ (pointed rest ++ cs)))
        (pointed rest ++ cs) :=
      .after (exact_takes "." _) fun _ => word_takes hw (pointed_stops rest h)
    rw [htext]
    refine (hone.manyWithin (ih hrest (Nat.le_of_succ_le_succ hlimit))).mono ?_
    rintro _ ⟨_, _, rfl, rfl, rfl⟩
    rfl

/-- A path that can be written: a name first, and words behind it. -/
def IsPath (p : Path) : Prop :=
  ∃ first rest, p = pathOf first rest ∧ isName first = true ∧ ∀ w ∈ rest, isWord w = true

theorem name_yields : name.Yields fun w => isName w = true :=
  .orElse (.quiet unreserved_yields) (.expected _)

theorem path_yields : path.Yields IsPath :=
  .bind name_yields fun first hfirst => .bind (.many (.after fun _ => word_yields)) fun rest hrest =>
    .pure ⟨first, rest, rfl, hfirst, hrest⟩

/-- Words with points between them are read as a path, unless they go on. -/
theorem words_take {first : String} {rest : List String} (hfirst : isName first = true)
    (hrest : ∀ w ∈ rest, isWord w = true) (h : headIs isWordRest cs = false)
    (hpoint : followsPoint isWordStart cs = false) :
    path.Takes (· = pathOf first rest) (first.toList ++ (pointed rest ++ cs)) cs := by
  have hlimit : rest.length ≤ (pointed rest ++ cs).length + 1 := by
    have hpoints : rest.length ≤ (pointed rest).length := length_le_flatMap (fun _ => cons_ne_nil _ _) rest
    rw [length_append]
    omega
  refine .bind (name_takes hfirst (pointed_stops rest h)) ?_
  rintro _ rfl
  refine .bind (.many (pointed_takes hrest hlimit h hpoint)) ?_
  rintro _ rfl
  exact .pure rfl

/-- **A path is read back from its text.** -/
theorem path_takes {p : Path} (hp : IsPath p) (h : headIs goesOn cs = false) :
    path.Takes (· = p) (p.text.toList ++ cs) cs := by
  obtain ⟨first, rest, rfl, hfirst, hrest⟩ := hp
  rw [toList_text_pathOf, append_assoc]
  exact words_take hfirst hrest (isWordRest_of_goesOn h) (followsPoint_of_goesOn _ h)

/-! ## Literals -/

theorem isDigit_of_goesOn (h : headIs goesOn cs = false) : headIs isDigit cs = false := by
  cases cs with
  | nil => rfl
  | cons c cs =>
    have hc : goesOn c = false := h
    simp only [goesOn, isWordRest, Bool.or_eq_false_iff] at hc
    exact hc.1.1.2

/-- What a number or a text literal starts with. -/
def opensLiteral (c : Char) : Bool :=
  isDigit c || c == '"'

theorem doubleLiteral_refuses (h : headIs isDigit cs = false) : doubleLiteral.Refuses cs :=
  .orElse (.quiet (.bind (chars1_refuses h))) (.expected _)

theorem integerLiteral_refuses (h : headIs isDigit cs = false) : integerLiteral.Refuses cs :=
  .orElse (.quiet (.bind (chars1_refuses h))) (.expected _)

theorem stringLiteral_refuses (h : headIs (· == '"') cs = false) : stringLiteral.Refuses cs := by
  refine .orElse (.quiet (.bind (exact_refuses ?_))) (.expected _)
  rintro ⟨rest, rfl⟩
  cases h

/-- No literal is read where the text starts with none. -/
theorem literal_refuses (h : headIs opensLiteral cs = false) (htrue : lead cs ≠ "True") (hfalse : lead cs ≠ "False") :
    literal.Refuses cs := by
  have hhead : headIs isDigit cs = false ∧ headIs (· == '"') cs = false := by
    cases cs with
    | nil => exact ⟨rfl, rfl⟩
    | cons c cs => exact Bool.or_eq_false_iff.mp h
  refine .orElse (doubleLiteral_refuses hhead.1) (.orElse (integerLiteral_refuses hhead.1) ?_)
  refine .orElse (stringLiteral_refuses hhead.2) (.orElse (.bind ?_) (.bind ?_))
  · exact keyword_refuses (by decide) htrue
  · exact keyword_refuses (by decide) hfalse

theorem isWordStart_of_isDigit {c : Char} (hc : isDigit c = true) : isWordStart c = false := by
  have hunderscore : c ≠ '_' := by
    rintro rfl
    cases hc
  simp only [isDigit, Bool.and_eq_true, decide_eq_true_eq, Char.le_def, UInt32.le_iff_toNat_le] at hc
  simp only [isWordStart, Bool.or_eq_false_iff, Bool.and_eq_false_iff, decide_eq_false_iff_not, beq_eq_false_iff_ne,
    Char.le_def, UInt32.le_iff_toNat_le]
  have hupper : ¬ 'A'.val.toNat ≤ c.val.toNat := Nat.not_le.mpr (Nat.lt_of_le_of_lt hc.2 (by decide))
  have hlower : ¬ 'a'.val.toNat ≤ c.val.toNat := Nat.not_le.mpr (Nat.lt_of_le_of_lt hc.2 (by decide))
  exact ⟨⟨hunderscore, .inl hupper⟩, .inl hlower⟩

theorem isWordStart_of_opensLiteral (h : headIs opensLiteral cs = true) : headIs isWordStart cs = false := by
  cases cs with
  | nil => rfl
  | cons c cs =>
    have hc : opensLiteral c = true := h
    simp only [opensLiteral, Bool.or_eq_true, beq_iff_eq] at hc
    rcases hc with hc | rfl
    · exact isWordStart_of_isDigit hc
    · rfl

/-- **Truth values are read back from their texts.** -/
theorem boolean_takes (b : Bool) (hword : headIs isWordRest cs = false) :
    literal.Takes (· = .boolean b) ((Literal.boolean b).text.toList ++ cs) cs := by
  cases b with
  | true =>
    refine .otherwise (doubleLiteral_refuses rfl) (.otherwise (integerLiteral_refuses rfl) ?_)
    refine .otherwise (stringLiteral_refuses rfl) (.orElse ?_)
    exact .after (keyword_takes "True" hword) fun _ => .pure rfl
  | false =>
    have hlead : lead ("False".toList ++ cs) ≠ "True" := by
      rw [lead_append (by decide) hword]
      decide
    refine .otherwise (doubleLiteral_refuses rfl) (.otherwise (integerLiteral_refuses rfl) ?_)
    refine .otherwise (stringLiteral_refuses rfl) (.otherwise (.bind (keyword_refuses (by decide) hlead)) ?_)
    exact .after (keyword_takes "False" hword) fun _ => .pure rfl

theorem digitsValue_toDigits (n : Nat) : digitsValue (Nat.toDigits 10 n) = n :=
  Nat.ofDigitChars_ten_toDigits

theorem isDigit_of_mem_toDigits {n : Nat} : ∀ c ∈ Nat.toDigits 10 n, isDigit c = true := by
  intro c hc
  have hdigit := Nat.isDigit_of_mem_toDigits (by decide) (by decide) hc
  exact hdigit

/-- A row of digits is read as its value, unless that is too large. -/
theorem digits_take {digits : List Char} (hne : digits ≠ []) (hdigits : ∀ x ∈ digits, isDigit x = true)
    (hlimit : digitsValue digits < integerLimit) (h : headIs isDigit cs = false)
    (hpoint : followsPoint isDigit cs = false) :
    literal.Takes (· = .integer (digitsValue digits)) (digits ++ cs) cs := by
  have hchars : (chars1 isDigit).Takes (· = digits) (digits ++ cs) cs := chars1_takes hne hdigits h
  refine .otherwise (.orElse (.quiet (.after hchars ?_)) (.expected _)) ?_
  · rintro _ rfl
    exact point_bind_refuses (fun _ _ h => .bind (chars1_refuses h)) hpoint
  refine .orElse (.orElse (.quiet (.bind hchars ?_)))
  rintro _ rfl
  rw [if_pos hlimit]
  exact .pure rfl

/-- **A whole number is read back from its text**, unless it is too large to be written at all. -/
theorem integer_takes {n : Nat} (hn : n < integerLimit) (h : headIs goesOn cs = false) :
    literal.Takes (· = .integer n) ((Literal.integer n).text.toList ++ cs) cs := by
  have htext : (Literal.integer n).text.toList = Nat.toDigits 10 n := Nat.toList_repr
  have hvalue := digitsValue_toDigits n
  have htakes := digits_take Nat.toDigits_ne_nil isDigit_of_mem_toDigits (hvalue.symm ▸ hn) (isDigit_of_goesOn h)
    (followsPoint_of_goesOn _ h)
  rwa [hvalue, ← htext] at htakes

theorem doubleLiteral_yields : doubleLiteral.Yields fun v => ∃ x, v = .double x :=
  .orElse (.quiet (.after fun _ => .after fun _ => .after fun _ => .pure ⟨_, rfl⟩)) (.expected _)

theorem stringLiteral_yields : stringLiteral.Yields fun v => ∃ s, v = .string s :=
  .orElse (.quiet (.after fun _ => .after fun _ => .after fun _ => .pure ⟨_, rfl⟩)) (.expected _)

/-- A whole number, as it is read. -/
theorem integerLiteral_reads (h : (integerLiteral c).result = some (v, d)) :
    ∃ digits, c.rest = digits ++ d.rest ∧ (digits ≠ [] ∧ ∀ x ∈ digits, isDigit x = true) ∧
      digitsValue digits < integerLimit ∧ .integer (digitsValue digits) = v := by
  rcases orElse_reads.mp h with h | ⟨-, h⟩
  · simp only [Parse.quiet, bind_reads] at h
    obtain ⟨digits, c₁, hdigits, h⟩ := h
    obtain ⟨hc, hdigits⟩ := chars1_reads hdigits
    split at h
    · rename_i hlimit
      obtain ⟨hv, rfl⟩ := pure_reads.mp h
      exact ⟨digits, hc, hdigits, hlimit, hv⟩
    · cases h
  · cases h

theorem keyword_reads {u : Unit} (h : (keyword w c).result = some (u, d)) : c.rest = w.toList ++ d.rest := by
  obtain ⟨_, c₁, hexact, h⟩ := bind_reads.mp h
  rw [exact_reads hexact]
  unfold Parse.notFollowedBy at h
  split at h
  · cases h
  · injection h with h
    injection h with _ h
    rw [h]

/-- A truth value, as it is read. -/
theorem booleanLiteral_reads (h : (booleanLiteral c).result = some (v, d)) :
    ∃ b, c.rest = (Literal.boolean b).text.toList ++ d.rest ∧ .boolean b = v := by
  rcases orElse_reads.mp h with h | ⟨-, h⟩
  · obtain ⟨_, c₁, hword, h⟩ := bind_reads.mp h
    obtain ⟨hv, rfl⟩ := pure_reads.mp h
    exact ⟨true, keyword_reads hword, hv⟩
  · obtain ⟨_, c₁, hword, h⟩ := bind_reads.mp h
    obtain ⟨hv, rfl⟩ := pure_reads.mp h
    exact ⟨false, keyword_reads hword, hv⟩

/-- The rule for each kind of literal is the only one that gives literals of that kind. -/
theorem literal_cases (h : (literal c).result = some (v, d)) :
    (integerLiteral c).result = some (v, d) ∨ (booleanLiteral c).result = some (v, d) ∨
      (∃ x, v = .double x) ∧ (doubleLiteral c).result = some (v, d) ∨
      (∃ s, v = .string s) ∧ (stringLiteral c).result = some (v, d) := by
  rcases orElse_reads.mp h with h | ⟨-, h⟩
  · exact .inr (.inr (.inl ⟨doubleLiteral_yields c v d h, h⟩))
  rcases orElse_reads.mp h with h | ⟨-, h⟩
  · exact .inl h
  rcases orElse_reads.mp h with h | ⟨-, h⟩
  · exact .inr (.inr (.inr ⟨stringLiteral_yields c v d h, h⟩))
  · exact .inr (.inl h)

/-- A number with a point, as it is read. -/
theorem doubleLiteral_reads (h : (doubleLiteral c).result = some (v, d)) :
    ∃ whole rest, c.rest = whole ++ '.' :: (rest ++ d.rest) ∧ (whole ≠ [] ∧ ∀ x ∈ whole, isDigit x = true) ∧
      (rest ≠ [] ∧ ∀ x ∈ rest, isDigit x = true) ∧
      .double (Binary.ofDecimal (digitsValue (whole ++ rest)) rest.length) = v := by
  rcases orElse_reads.mp h with h | ⟨-, h⟩
  · simp only [Parse.quiet, bind_reads, pure_reads] at h
    obtain ⟨whole, c₁, hwhole, _, c₂, hpoint, rest, c₃, hrest, hv, rfl⟩ := h
    obtain ⟨hc, hwhole⟩ := chars1_reads hwhole
    obtain ⟨hc₂, hrest⟩ := chars1_reads hrest
    refine ⟨whole, rest, ?_, hwhole, hrest, hv⟩
    rw [hc, exact_reads hpoint, hc₂]
    rfl
  · cases h

/-- A text between quotes, as it is read. -/
theorem stringLiteral_reads (h : (stringLiteral c).result = some (v, d)) :
    ∃ offset cs, c.rest = '"' :: cs ∧ (readStringChars offset cs).2.rest = '"' :: d.rest ∧
      .string (String.ofList (readStringChars offset cs).1) = v := by
  rcases orElse_reads.mp h with h | ⟨-, h⟩
  · simp only [Parse.quiet, bind_reads, pure_reads] at h
    obtain ⟨_, c₁, hopen, cs, c₂, hcs, _, c₃, hclose, hv, rfl⟩ := h
    injection hcs with hcs
    refine ⟨c₁.offset, c₁.rest, exact_reads hopen, ?_, ?_⟩
    · rw [hcs]
      exact exact_reads hclose
    · rw [hcs]
      exact hv
  · cases h

/-- A backslash has something behind it or nothing. -/
theorem ne_backslash {c : Char} (hlone : c = '\\' → rest = [] → False)
    (hpair : ∀ x xs, c = '\\' → rest = x :: xs → False) : c ≠ '\\' := by
  intro hc
  cases rest with
  | nil => exact hlone hc rfl
  | cons x xs => exact hpair x xs hc rfl

/-- A character that starts no escape stands for itself, unless the text ends in front of it. -/
theorem readStringChars_plain {c : Char} (hplain : c ≠ '\\') (offset : Nat) (cs : List Char) :
    readStringChars offset (c :: cs) =
      if c == '"' || isLineEnd c then ([], ⟨offset, c :: cs⟩)
      else (c :: (readStringChars (offset + c.utf8Size) cs).1, (readStringChars (offset + c.utf8Size) cs).2) := by
  rw [readStringChars]
  · exact fun hc _ => hplain hc
  · exact fun _ _ hc _ => hplain hc

/-- Characters up to a closing quote are the same wherever they stand and whatever is behind the quote. -/
theorem readStringChars_append (more : List Char) (start : Nat) (h : (readStringChars offset cs).2.rest = '"' :: rest) :
    ∃ stop, readStringChars start (cs ++ more) = ((readStringChars offset cs).1, ⟨stop, '"' :: (rest ++ more)⟩) := by
  fun_induction readStringChars offset cs generalizing start with
  | case1 => cases h
  | case2 => cases h
  | case3 offset c tail x hescape xs cursor hread ih =>
    rw [hread] at ih
    obtain ⟨stop, hstop⟩ := ih (start + 2) h
    exact ⟨stop, by simp [readStringChars, hescape, hstop]⟩
  | case4 => cases h
  | case5 offset c tail _ _ hend =>
    injection h with hc htail
    subst hc htail
    exact ⟨start, by simp [readStringChars]⟩
  | case6 offset c tail hlone hpair hend xs cursor hread ih =>
    rw [hread] at ih
    obtain ⟨stop, hstop⟩ := ih (start + c.utf8Size) h
    refine ⟨stop, ?_⟩
    rw [cons_append, readStringChars_plain (ne_backslash hlone hpair), if_neg hend, hstop]

/-- Digits on both sides of a point are read as a number. -/
theorem decimal_takes {whole : List Char} (hwhole : whole ≠ [] ∧ ∀ x ∈ whole, isDigit x = true)
    (hrest : rest ≠ [] ∧ ∀ x ∈ rest, isDigit x = true) (h : headIs isDigit cs = false) :
    doubleLiteral.Takes (· = .double (Binary.ofDecimal (digitsValue (whole ++ rest)) rest.length))
      (whole ++ '.' :: (rest ++ cs)) cs := by
  refine .orElse (.quiet (.bind (chars1_takes hwhole.1 hwhole.2 rfl) ?_))
  rintro _ rfl
  refine .after (exact_takes "." _) fun _ => .bind (chars1_takes hrest.1 hrest.2 h) ?_
  rintro _ rfl
  exact .pure rfl

theorem double_takes (hread : (doubleLiteral (.start text)).result = some (v, d)) (hend : d.rest = [])
    (h : headIs goesOn cs = false) : literal.Takes (· = v) (text.toList ++ cs) cs := by
  obtain ⟨whole, rest, htext, hwhole, hrest, hv⟩ := doubleLiteral_reads hread
  have htext : text.toList ++ cs = whole ++ ('.' :: (rest ++ cs)) := by
    rw [show text.toList = whole ++ '.' :: (rest ++ d.rest) from htext, hend]
    simp
  rw [htext, ← hv]
  exact .orElse (decimal_takes hwhole hrest (isDigit_of_goesOn h))

/-- What is read up to a closing quote is a text literal behind an opening one, whatever follows. -/
theorem quoted_takes (h : (readStringChars offset cs).2.rest = '"' :: rest) (more : List Char) :
    literal.Takes (· = .string (String.ofList (readStringChars offset cs).1)) ('"' :: (cs ++ more)) (rest ++ more) := by
  have hchars : stringChars.Takes (· = (readStringChars offset cs).1) (cs ++ more) ('"' :: (rest ++ more)) := by
    intro start
    obtain ⟨stop, hstop⟩ := readStringChars_append more start h
    exact ⟨_, stop, congrArg some hstop, rfl⟩
  refine .otherwise (doubleLiteral_refuses rfl) (.otherwise (integerLiteral_refuses rfl) ?_)
  refine .orElse (.orElse (.quiet ?_))
  refine .after (exact_takes "\"" _) fun _ => .bind hchars ?_
  rintro _ rfl
  exact .after (exact_takes "\"" _) fun _ => .pure rfl

theorem string_takes (hread : (stringLiteral (.start text)).result = some (v, d)) (hend : d.rest = [])
    (cs : List Char) : literal.Takes (· = v) (text.toList ++ cs) cs := by
  obtain ⟨offset, chars, htext, hclose, rfl⟩ := stringLiteral_reads hread
  rw [hend] at hclose
  rw [show text.toList = '"' :: chars from htext]
  exact quoted_takes hclose cs

/-- The text of the literal is read as the literal itself. -/
def ReadsBack (v : Literal) : Prop :=
  literal.run v.text = .ok v

theorem readsBack_iff (v : Literal) : (literal.run v.text).toOption = some v ↔ ReadsBack v := by
  unfold ReadsBack
  cases literal.run v.text <;> simp [Except.toOption]

instance (v : Literal) : Decidable (ReadsBack v) :=
  decidable_of_iff _ (readsBack_iff v)

/-- **A text that is read as a literal is so wherever it stands**, unless it goes on. -/
theorem literal_takes (hv : literal.run text = .ok v) (h : headIs goesOn cs = false) :
    literal.Takes (· = v) (text.toList ++ cs) cs := by
  obtain ⟨d, hread, hend⟩ := run_reads hv
  rcases literal_cases hread with hread | hread | ⟨-, hread⟩ | ⟨-, hread⟩
  · obtain ⟨digits, htext, hdigits, hlimit, rfl⟩ := integerLiteral_reads hread
    rw [hend, append_nil] at htext
    rw [show text.toList = digits from htext]
    exact digits_take hdigits.1 hdigits.2 hlimit (isDigit_of_goesOn h) (followsPoint_of_goesOn _ h)
  · obtain ⟨b, htext, rfl⟩ := booleanLiteral_reads hread
    rw [hend, append_nil] at htext
    rw [show text.toList = (Literal.boolean b).text.toList from htext]
    exact boolean_takes b (isWordRest_of_goesOn h)
  · exact double_takes hread hend h
  · exact string_takes hread hend cs

theorem readsBack_of_takes (h : literal.Takes (· = v) (v.text.toList ++ []) []) : ReadsBack v := by
  rw [append_nil] at h
  obtain ⟨_, hrun, rfl⟩ := h.run
  exact hrun

/-- Whole numbers that can be read and truth values are always read back. -/
theorem readsBack_of_reads (h : (literal c).result = some (v, d)) (hdouble : ∀ x, v = .double x → ReadsBack v)
    (hstring : ∀ s, v = .string s → ReadsBack v) : ReadsBack v := by
  rcases literal_cases h with hread | hread | ⟨⟨x, hx⟩, -⟩ | ⟨⟨s, hs⟩, -⟩
  · obtain ⟨digits, -, -, hlimit, rfl⟩ := integerLiteral_reads hread
    exact readsBack_of_takes (integer_takes hlimit rfl)
  · obtain ⟨b, -, rfl⟩ := booleanLiteral_reads hread
    exact readsBack_of_takes (boolean_takes b rfl)
  · exact hdouble x hx
  · exact hstring s hs

end Grammar
end UnionTyping
