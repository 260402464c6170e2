import UnionTyping.Grammar.Line

/-!
# `Proofs.Names` — what is declared is a name

Whatever a module declares is called by a name: a word that is not reserved
(`isName_of_parseProgram`). The operators are not called by names, so no module declares one anew, whatever
the module itself is called.

The result of a parser is traced to its parts with `Parse.Yields`: every value that it reads has the
property, from wherever it starts.
-/

namespace UnionTyping
namespace Grammar

/-- Whether the text is a word. -/
def isWord (w : String) : Bool :=
  match w.toList with
  | [] => false
  | c :: cs => isWordStart c && cs.all isWordRest

/-- Whether the text is a word that is not reserved. -/
def isName (w : String) : Bool :=
  isWord w && !reserved.contains w

namespace Parse

variable {α β : Type} {P : α → Prop} {Q : β → Prop} {p : Parse α} {f : α → Parse β}

/-- **Whatever the parser reads has the property.** -/
def Yields (p : Parse α) (P : α → Prop) : Prop :=
  ∀ c a d, (p c).result = some (a, d) → P a

theorem Yields.pure {a : α} (h : P a) : (pure a : Parse α).Yields P := by
  rintro c b d hb
  cases hb
  exact h

/-- The second parser may count on what the first one yields. -/
theorem Yields.bind (hp : p.Yields P) (hf : ∀ a, P a → (f a).Yields Q) :
    (p >>= f).Yields Q := by
  intro c b d hb
  cases hrun : p c with
  | mk result failures =>
    simp only [Bind.bind, hrun] at hb
    cases result with
    | none => cases hb
    | some r => exact hf r.1 (hp c r.1 r.2 (by rw [hrun])) r.2 b d hb

/-- Without a property of what is read first. -/
theorem Yields.after (hf : ∀ a, (f a).Yields Q) : (p >>= f).Yields Q :=
  Yields.bind (P := fun _ => True) (fun _ _ _ _ => trivial) fun a _ => hf a

theorem Yields.orElse {p q : Parse α} (hp : p.Yields P) (hq : q.Yields P) : (p <|> q).Yields P := by
  intro c a d h
  cases hrun : p c with
  | mk result failures =>
    simp only [HOrElse.hOrElse, OrElse.orElse, Parse.orElse, hrun] at h
    cases result with
    | none => exact hq c a d h
    | some r => exact hp c a d (by rw [hrun]; exact h)

theorem Yields.fail : (fail : Parse α).Yields P :=
  fun _ _ _ h => by cases h

theorem Yields.expected (token : String) : (expected token : Parse α).Yields P :=
  fun _ _ _ h => by cases h

theorem Yields.quiet (hp : p.Yields P) : p.quiet.Yields P :=
  fun c a d h => hp c a d h

theorem Yields.optional (hp : p.Yields P) : p.optional.Yields fun o => ∀ a ∈ o, P a :=
  .orElse (.bind hp fun a ha => .pure (by simpa using ha)) (.pure (by simp))

/-- Every element of a repetition was yielded by one of its rounds. -/
theorem Yields.many (hp : p.Yields P) : p.many.Yields fun as => ∀ a ∈ as, P a := by
  have hwithin : ∀ limit, (p.manyWithin limit).Yields fun as => ∀ a ∈ as, P a := by
    intro limit
    induction limit with
    | zero => exact .pure (by simp)
    | succ limit ih =>
      refine .orElse (.bind hp fun a ha => .bind ih fun as has => .pure ?_) (.pure (by simp))
      exact List.forall_mem_cons.mpr ⟨ha, has⟩
  exact fun c as d h => hwithin _ c as d h

/-- A character that is read belongs to the class. -/
theorem char_yields (p : Char → Bool) : (char p).Yields fun x => p x = true := by
  intro c x d h
  unfold char at h
  split at h
  · split at h
    · rename_i hp
      cases h
      exact hp
    · cases h
  · cases h

theorem chars_yields (p : Char → Bool) : (chars p).Yields fun xs => ∀ x ∈ xs, p x = true := by
  intro c xs d h x hx
  injection h with h
  have hxs : (readWhile p c.offset c.rest).1 = xs := congrArg Prod.fst h
  exact of_mem_readWhile (hxs ▸ hx)

end Parse

open Parse

/-- What is read as a word has the spelling of one. -/
theorem word_yields : word.Yields fun w => isWord w = true := by
  refine .bind (char_yields _) fun c hc => .bind (chars_yields _) fun cs hcs => .pure ?_
  rw [isWord, String.toList_ofList, Bool.and_eq_true, List.all_eq_true]
  exact ⟨hc, hcs⟩

theorem unreserved_yields : unreserved.Yields fun w => isName w = true := by
  refine .bind word_yields fun w hw => ?_
  split
  · exact .fail
  · rename_i hreserved
    refine .pure ?_
    rw [isName, hw, Bool.true_and, Bool.not_eq_true', Bool.eq_false_iff]
    exact hreserved

theorem ident_yields (source : Nat) : (ident source).Yields fun i => isName i.name = true := by
  have hname : name.Yields fun w => isName w = true := .orElse (.quiet unreserved_yields) (.expected _)
  exact .after fun start => .bind hname fun w hw => .after fun stop => .pure hw

theorem decl_yields (source : Nat) : (decl source).Yields fun d => isName d.name.name = true :=
  .after fun _ => .bind (ident_yields source) fun _ hn =>
    .after fun _ => .after fun _ => .after fun _ => .after fun _ => .after fun _ => .pure hn

/-- **What holds of every declaration that can be read** holds of those of a module that was read. -/
theorem parseProgram_yields {P : Decl → Prop} {source : Nat} {home text : String} {p : Program}
    (hdecl : (decl source).Yields P) (h : parseProgram source home text = .ok p) : ∀ d ∈ p.decls, P d := by
  have hline : (line source).Yields fun o => ∀ d ∈ o, P d :=
    .after fun _ => .bind (.optional hdecl) fun _ ho => .after fun _ => .after fun _ => .pure ho
  have hlines : (lines source).Yields fun ds => ∀ d ∈ ds, P d := by
    refine .bind hline fun first hfirst => .bind (.many (.after fun _ => hline)) fun rest hrest => .pure ?_
    intro d hd
    obtain ⟨o, ho, hod⟩ := List.mem_filterMap.mp hd
    rcases List.mem_cons.mp ho with rfl | ho
    · exact hfirst d hod
    · exact hrest o ho d hod
  have hwhole : (do let ds ← lines source; finish; return ds : Parse (List Decl)).Yields fun ds => ∀ d ∈ ds, P d :=
    .bind hlines fun _ hds => .after fun _ => .pure hds
  unfold parseProgram at h
  split at h
  · rename_i ds hrun
    cases h
    unfold Parse.run at hrun
    extract_lets reply at hrun
    split at hrun
    · rename_i ds' rest hreply
      injection hrun with hrun
      exact hrun ▸ hwhole _ ds' rest hreply
    · cases hrun
  · cases h

/-- **Every declaration of a module that was read is called by a name.** -/
theorem isName_of_parseProgram {source : Nat} {home text : String} {p : Program}
    (h : parseProgram source home text = .ok p) : ∀ d ∈ p.decls, isName d.name.name = true :=
  parseProgram_yields (decl_yields source) h

end Grammar
end UnionTyping
