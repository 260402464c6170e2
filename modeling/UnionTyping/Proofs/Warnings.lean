import UnionTyping.Proofs.Application
import UnionTyping.Proofs.Scopes

/-!
# `Proofs.Warnings` — what is written to the journal

Everything that the solver writes is a step, or the refusal to bind a variable (`LogRecord.Ordinary`). Records
are added and never taken away, also where bindings are undone.

Releasing a type that is not pinned is no failure: a warning is all that comes of it. Since typing gives back
the scopes as it found them, every type that it releases is one that it has pinned, and the warning is never
written (`typing_restores_scopes`).
-/

namespace UnionTyping

open List Store

/-! ## Records -/

variable {r : LogRecord}

namespace LogRecord

/-- A step, or the refusal to bind a variable. -/
def Ordinary (r : LogRecord) : Prop :=
  r.level ≠ .warn ∨ ∃ e : BindError, r.message = e.message

/-- The warning that a type was to be released which was not pinned. -/
def Unmatched (r : LogRecord) : Prop :=
  ∃ t : Ty, r = ⟨.warn, "generify of a type that was never specialized: " ++ t.text⟩

/-- The first letter is enough to tell this warning from the refusals to bind. -/
theorem Unmatched.head? (h : r.Unmatched) : r.message.toList.head? = some 'g' := by
  obtain ⟨t, rfl⟩ := h
  rw [String.toList_append, head?_append]
  rfl

/-- The refusals begin with another letter. -/
theorem head?_message (e : BindError) : e.message.toList.head? ≠ some 'g' := by
  have hunknown : "bind of unknown variable ".toList.head? = some 'b' := by decide
  have hbound : "ignoring re-binding of '".toList.head? = some 'i' := by decide
  unfold BindError.message
  cases e with
  | unknown id =>
    simp only [String.toList_append, head?_append, hunknown, Option.some_or]
    decide
  | bound name existing refused =>
    simp only [String.toList_append, head?_append, hbound, Option.some_or]
    decide

/-- No ordinary record can be mistaken for the warning. -/
theorem Ordinary.not_unmatched (h : r.Ordinary) : ¬r.Unmatched := by
  intro hunmatched
  rcases h with hlevel | ⟨e, he⟩
  · obtain ⟨t, ht⟩ := hunmatched
    exact hlevel (congrArg level ht)
  · exact head?_message e (he ▸ hunmatched.head?)

end LogRecord

/-- **One journal continues another**: its records are those of the other and, after them, ordinary ones. -/
def Journal.Continues (j k : Journal) : Prop :=
  ∃ records, k.records.toList = j.records.toList ++ records ∧ ∀ r ∈ records, r.Ordinary

namespace Journal.Continues

theorem refl (j : Journal) : j.Continues j :=
  ⟨[], by simp, by simp⟩

theorem trans {j k l : Journal} (h : j.Continues k) (h' : k.Continues l) : j.Continues l := by
  obtain ⟨first, hfirst, hordinary⟩ := h
  obtain ⟨second, hsecond, hordinary'⟩ := h'
  refine ⟨first ++ second, by rw [hsecond, hfirst, append_assoc], fun r hr => ?_⟩
  rcases mem_append.mp hr with hr | hr
  · exact hordinary r hr
  · exact hordinary' r hr

theorem push (j : Journal) (h : r.Ordinary) : j.Continues { j with records := j.records.push r } :=
  ⟨[r], by simp, by simpa using h⟩

/-- What is noted is not a warning, so it is ordinary, whether or not it is traced. -/
theorem note (j : Journal) {level : LogLevel} (hlevel : level ≠ .warn) (message : Unit → String) :
    j.Continues (j.note level message) := by
  unfold Journal.note
  split
  · exact push j (Or.inl hlevel)
  · exact refl j

end Journal.Continues

/-! ## Comparisons -/

variable {s s' : Store}

theorem bind_continues (s : Store) (id : Nat) (t : Ty) : s.journal.Continues (s.bind id t).2.journal := by
  unfold Store.bind
  split
  · exact .refl _
  · rename_i e _
    exact .push _ (Or.inr ⟨e, rfl⟩)

theorem bindTo_continues (v : TyVar) (t : Ty) (s : Store) : s.journal.Continues (bindTo v t s).2.journal := by
  unfold bindTo
  split
  · exact .refl _
  · exact bind_continues s v.id t

/-- The comparison writes ordinary records only. -/
abbrev Comparison.Reporting (compare : Comparison) : Prop :=
  compare.Meets fun _ _ s _ s' => s.journal.Continues s'.journal

theorem compareAll_continues {next : Comparison} (hnext : next.Reporting) {level : Nat} {verdict : Bool}
    {pairs : List (Ty × Ty)} {ok : Bool} (h : compareAll next level verdict pairs s = some (ok, s')) :
    s.journal.Continues s'.journal :=
  compareAll_relates (R := fun s s' => s.journal.Continues s'.journal) (fun _ => .refl _) .trans
    (fun p _ s => hnext p.1 p.2 level s) h

section Alternatives

variable {alternatives : List Ty} {attempt : Attempt}
  (hattempt : ∀ t s ok s', attempt t s = some (ok, s') → s.journal.Continues s'.journal)
include hattempt

/-- What an attempt has written remains when its bindings are undone. -/
theorem tryAlternatives_continues {search : Search}
    (h : tryAlternatives attempt alternatives s = some (search, s')) : s.journal.Continues s'.journal := by
  induction alternatives generalizing s s' search with
  | nil =>
    cases h
    exact .refl _
  | cons t rest ih =>
    unfold tryAlternatives at h
    obtain ⟨⟨ok, tried⟩, htried, h⟩ := Option.bind_eq_some_iff.mp h
    have hwritten := hattempt t s ok tried htried
    simp only [] at h
    split at h
    · cases h
      exact hwritten
    · obtain ⟨⟨searched, s₂⟩, hrest, h⟩ := Option.bind_eq_some_iff.mp h
      have hall := hwritten.trans (ih (s := tried.rollback _) hrest)
      cases searched with
      | settled =>
        cases h
        exact hall
      | found more =>
        simp only [] at h
        split at h
        · cases h
          exact hall
        · cases h
          exact hall

omit hattempt in
/-- Binding the values that several successes have in common leaves a trace and perhaps refusals. -/
theorem accrete_continues (level count : Nat) (bindings : List (Nat × Ty)) (s : Store) :
    s.journal.Continues (accrete level count bindings s).journal := by
  induction bindings generalizing s with
  | nil => exact .refl _
  | cons e rest ih =>
    obtain ⟨id, t⟩ := e
    unfold accrete
    extract_lets noted
    exact (Journal.Continues.note s.journal (by decide) _).trans ((bind_continues noted id t).trans (ih _))

theorem compareAlternatives_continues {level : Nat} {ok : Bool}
    (h : compareAlternatives attempt level alternatives s = some (ok, s')) : s.journal.Continues s'.journal := by
  unfold compareAlternatives at h
  obtain ⟨⟨search, before⟩, hsearch, h⟩ := Option.bind_eq_some_iff.mp h
  have hsearched := tryAlternatives_continues hattempt hsearch
  simp only [] at h
  split at h
  · cases h
    exact hsearched
  · cases h
    exact hsearched
  · exact hsearched.trans (hattempt _ _ _ _ h)
  · cases h
    exact hsearched.trans (accrete_continues _ _ _ _)

end Alternatives

theorem compareStep_reporting {defs : Definitions} {next : Comparison} (hnext : next.Reporting) :
    (compareStep defs next).Reporting := by
  intro l r level s ok s' h
  unfold compareStep at h
  extract_lets left right noted at h
  have hnoted : s.journal.Continues noted.journal := .note s.journal (by decide) _
  split at h
  · exact (Prod.mk.inj (Option.some.inj h)).2 ▸ hnoted
  · obtain ⟨⟨ok', after⟩, hrun, h⟩ := Option.bind_eq_some_iff.mp h
    cases h
    rw [compareCases_eq_run] at hrun
    refine (hnoted.trans ?_).trans (Journal.Continues.note after.journal (by decide) _)
    cases hplan : plan defs noted.arena left right with
    | decide verdict =>
      rw [hplan] at hrun
      cases hrun
      exact .refl _
    | bind v t =>
      rw [hplan] at hrun
      injection hrun with hrun
      have hbind := bindTo_continues v t noted
      rw [hrun] at hbind
      exact hbind
    | all pairs verdict =>
      rw [hplan] at hrun
      exact compareAll_continues hnext hrun
    | any pair alternatives =>
      rw [hplan] at hrun
      exact compareAlternatives_continues (fun t s ok s' h => hnext _ _ _ s ok s' h) hrun

/-- **Unification writes ordinary records only.** -/
theorem unify_continues (s : Store) (defs : Definitions) (l r : Ty) :
    s.journal.Continues (s.unify defs l r).2.journal := by
  have hcompare : (compareWithin defs s.arena.unboundCount).Reporting :=
    compareWithin_meets (fun _ => compareStep_reporting) _
  unfold unify
  split
  · rename_i after h
    exact hcompare _ _ _ _ _ _ h
  · rename_i after h
    exact hcompare _ _ _ _ _ after h
  · exact .refl _

/-! ## Applications -/

theorem narrowArgument_continues (argument : Ty) (matched : List Ty) (s : Store) :
    s.journal.Continues (narrowArgument argument matched s).journal := by
  unfold narrowArgument
  split
  · split
    · exact .refl _
    · extract_lets noted
      exact (Journal.Continues.note s.journal (by decide) _).trans (bind_continues noted _ _)
  · exact .refl _

/-- The journal is continued. -/
def continuing : Discipline Store Ty where
  Inv _ := True
  Step s s' := s.journal.Continues s'.journal
  Out _ _ := True
  refl s := .refl s.journal
  trans h h' := h.trans h'
  mono _ _ := trivial

theorem continuing_applying (defs : Definitions) : Applying continuing defs where
  func _ _ := trivial
  union? _ _ := trivial
  alternative _ _ := trivial
  follow _ _ := trivial
  expose _ _ := trivial
  decompose _ _ _ := trivial
  note _ _ hlevel _ := ⟨trivial, .note _ hlevel _⟩
  fresh _ := ⟨trivial, .refl _, trivial⟩
  unify _ _ _ := ⟨trivial, unify_continues _ _ _ _⟩
  narrow _ _ _ := ⟨trivial, narrowArgument_continues _ _ _⟩
  undo _ _ h := ⟨trivial, h⟩

/-! ## Groups of declarations -/

namespace Context

/-- A type that is not pinned is released with the warning, and with nothing else. -/
theorem unpin_unmatched {c : Context} {t : Ty} (h : c.environment.unpin? t = none) : ∃ r : LogRecord, r.Unmatched ∧
    c.unpin t = { c with store := { c.store with journal :=
      { c.store.journal with records := c.store.journal.records.push r } } } := by
  unfold unpin
  rw [h]
  exact ⟨_, ⟨t, rfl⟩, rfl⟩

theorem collectTypes_continues {β : Type} (members : List (Member β)) (c : Context) :
    c.store.journal.Continues (collectTypes members c).2.store.journal := by
  induction members generalizing c with
  | nil => exact .refl _
  | cons m rest ih =>
    unfold collectTypes
    split
    · exact .refl _
    · extract_lets t noted
      have hrest := (Journal.Continues.note c.store.journal (by decide) _).trans (ih noted)
      cases hcollect : collectTypes rest noted with
      | mk outcome d =>
        rw [hcollect] at hrest
        cases outcome with
        | ok ts => exact hrest
        | error symbol => exact hrest

/-- A group whose bodies restore the scopes releases what it has pinned, and warns of nothing. -/
theorem declareGroup_continues {ε σ : Type} {wrap : InferenceError → ε} {group : List (Locator × Body ε σ)}
    {own own' : σ} {c opened d : Context} {members : List (Member (Body ε σ))} {outcome : Except ε Unit}
    (hopen : openGroup group c = (members, opened))
    (hbodies : typeBodies wrap members own opened = (outcome, own', d))
    (hrestores : d.environment = opened.environment) :
    d.store.journal.Continues (declareGroup wrap group own c).2.2.store.journal := by
  obtain ⟨journal, hjournal, hcases⟩ := declareGroup_cases hopen hbodies hrestores
  have hcontinues : d.store.journal.Continues journal := by
    rcases hjournal with rfl | ⟨environment, rfl⟩
    · exact .refl _
    · exact collectTypes_continues members _
  rcases hcases with ⟨-, h⟩ | ⟨e, h⟩
  · rwa [h]
  · rwa [h]

end Context

/-! ## Expressions -/

namespace Typing

open Check

/-- Typing restores scopes, writes ordinary records only, and loads no module. -/
def reporting : Discipline Context Ty where
  Inv _ := True
  Step c d := restoring.Step c d ∧ c.store.journal.Continues d.store.journal ∧ d.modules = c.modules
  Out _ _ := True
  refl c := ⟨restoring.refl c, .refl _, rfl⟩
  trans h h' := ⟨restoring.trans h.1 h'.1, h.2.1.trans h'.2.1, h'.2.2.trans h.2.2⟩
  mono _ _ := trivial

/-- The operations of the solver write ordinary records, and look at scopes without changing them. -/
theorem reporting_solving : Solving reporting where
  simple _ _ := trivial
  func _ _ _ _ _ := trivial
  union? _ _ _ _ _ := trivial
  expose _ _ _ _ := trivial
  note c _ _ hlevel _ := ⟨trivial, ⟨rfl, rfl⟩, .note c.store.journal hlevel _, rfl⟩
  lookup c l _ := by
    obtain ⟨_, hout, -⟩ := c.typeOf_spec l
    rw [hout]
    exact ⟨trivial, ⟨⟨rfl, rfl⟩, .refl _, rfl⟩, fun _ _ => trivial⟩
  unify c l r _ _ _ := ⟨trivial, ⟨rfl, rfl⟩, unify_continues c.store c.definitions l r, rfl⟩
  apply c _ _ _ _ _ :=
    ⟨trivial, ⟨⟨rfl, rfl⟩, ((continuing_applying c.definitions).apply trivial trivial trivial).2.1, rfl⟩,
      fun _ _ => trivial⟩

theorem reporting_disciplined : Disciplined reporting where
  toSolving := reporting_solving
  parameter := by
    intro x body hbody
    refine parameter_obeys x hbody fun c _ => ⟨trivial, trivial, fun d _ hd => ?_⟩
    refine ⟨trivial, ⟨closeParameter_open x c d hd.1, ?_⟩, fun _ _ => trivial⟩
    rw [closeParameter_eq hd.1]
    exact hd.2
  binding := by
    intro span x value body hvalue hbody
    refine binding_obeys span x hbody fun c _ => ⟨trivial, fun d _ hd => ?_⟩
    obtain ⟨htyped, hwritten, hmodules⟩ :=
      (typeValue_obeys (x := x) (c := c) reporting_solving hvalue trivial trivial).2
    obtain ⟨s, hscopes⟩ := boundValue_scopes x htyped
    have hdeclared : c.store.journal.Continues (boundValue x value c.enter).2.store.journal := by
      rw [(boundValue_of_group rfl).1]
      exact hwritten.trans (Context.declareGroup_continues (openGroup_value x value c) rfl htyped.1)
    have hloaded : (boundValue x value c.enter).2.modules = c.modules := by
      obtain ⟨journal, hok | ⟨_, hfailed⟩⟩ := boundValue_cases x value rfl htyped.1
      · exact hok ▸ hmodules
      · exact hfailed ▸ hmodules
    exact ⟨trivial, ⟨leave_restores hscopes hd.1, hdeclared.trans hd.2.1, hd.2.2.trans hloaded⟩, fun _ _ => trivial⟩

/-- **Typing an expression restores the scopes.** Whatever the context and however typing ends, the scopes are
    what they were, with all their candidates and pinned types, and so are the type definitions. The journal
    is continued, and none of the new records is the warning that comes of releasing a type which is not
    pinned: no such type is ever released. -/
theorem typing_restores_scopes (home : String) (e : Expr) (c : Context) :
    (infer home e c).2.environment = c.environment ∧
    (infer home e c).2.definitions = c.definitions ∧
    (∃ records, (infer home e c).2.store.journal.records.toList = c.store.journal.records.toList ++ records ∧
      ∀ r ∈ records, ¬r.Unmatched) ∧
    ∀ (d : Context) (t : Ty), d.environment.unpin? t = none → ∃ r : LogRecord, r.Unmatched ∧
      (d.unpin t).store.journal.records = d.store.journal.records.push r := by
  obtain ⟨-, ⟨hscopes, ⟨records, hrecords, hordinary⟩, -⟩, -⟩ :=
    reporting_disciplined.infer_obeys home e c trivial fun _ _ => trivial
  refine ⟨hscopes.1, hscopes.2, ⟨records, hrecords, fun r hr => (hordinary r hr).not_unmatched⟩, ?_⟩
  intro d t ht
  obtain ⟨r, hr, hunpin⟩ := Context.unpin_unmatched ht
  exact ⟨r, hr, by rw [hunpin]⟩

end Typing

end UnionTyping
