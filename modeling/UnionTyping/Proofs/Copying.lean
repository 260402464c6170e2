import UnionTyping.Solve.Context
import UnionTyping.Proofs.Confined

/-!
# `Proofs.Copying` — what a copy consists of

A copy hands out variables and binds none. A variable of a copy is either one that was handed out for it, or
a pinned one that the original leads to (`copyAll_obeys`).

Copies are made by a replacement that changes a state as it goes from left to right. A `Discipline` says
what such a replacement keeps and what it may put in; `substM_obeys` carries it from single variables to
whole types.
-/

namespace UnionTyping

open List Ty

/-! ## Replacement with a state -/

/-- What a computation with a state has to observe: an invariant, a relation between the states before and
    after, and what may be part of the result by the end. -/
structure Discipline (σ ι : Type) where
  Inv : σ → Prop
  Step : σ → σ → Prop
  Out : σ → ι → Prop
  refl : ∀ s, Step s s
  trans : ∀ {s t u}, Step s t → Step t u → Step s u
  mono : ∀ {s t x}, Step s t → Out s x → Out t x

namespace Discipline

variable {σ ι α β : Type} (D : Discipline σ ι)

/-- The computation keeps the discipline, if what is given was allowed before. -/
def Obeys (given : List ι) (parts : α → List ι) (m : StateM σ α) : Prop :=
  ∀ s, D.Inv s → (∀ x ∈ given, D.Out s x) →
    D.Inv (m.run s).2 ∧ D.Step s (m.run s).2 ∧ ∀ x ∈ parts (m.run s).1, D.Out (m.run s).2 x

variable {D} {given : List ι} {parts : α → List ι}

theorem Obeys.pure {x : α} (h : parts x ⊆ given) : D.Obeys given parts (pure x) :=
  fun s hs hg => ⟨hs, D.refl s, fun y hy => hg y (h hy)⟩

theorem Obeys.given_nil {m : StateM σ α} (h : D.Obeys [] parts m) : D.Obeys given parts m :=
  fun s hs _ => h s hs (by simp)

theorem Obeys.bind {parts' : β → List ι} {m : StateM σ α} {k : α → StateM σ β} (hm : D.Obeys given parts m)
    (hk : ∀ x, D.Obeys (given ++ parts x) parts' (k x)) : D.Obeys given parts' (m >>= k) := by
  intro s hs hg
  obtain ⟨hinv, hstep, hout⟩ := hm s hs hg
  obtain ⟨hinv', hstep', hout'⟩ := hk (m.run s).1 (m.run s).2 hinv fun x hx => by
    rcases mem_append.mp hx with hx | hx
    · exact D.mono hstep (hg x hx)
    · exact hout x hx
  exact ⟨hinv', D.trans hstep hstep', hout'⟩

theorem Obeys.get_bind {k : σ → StateM σ α} (h : ∀ s, D.Inv s → D.Obeys given parts (k s)) :
    D.Obeys given parts (get >>= k) :=
  fun s hs hg => h s hs s hs hg

end Discipline

section Replacement

variable {σ : Type} {D : Discipline σ TyVar} {f : TyVar → StateM σ Ty}

theorem substListM_obeys {ts : List Ty} (h : ∀ t ∈ ts, D.Obeys [] vars (t.substM f)) :
    D.Obeys [] (List.flatMap vars) (substListM f ts) := by
  induction ts with
  | nil => exact .pure (by simp)
  | cons t ts ih =>
    obtain ⟨ht, hts⟩ := forall_mem_cons.mp h
    refine ht.bind fun u => (ih hts).given_nil.bind fun us => .pure ?_
    simp

theorem substFieldsM_obeys {fs : List (String × Ty)} (h : ∀ e ∈ fs, D.Obeys [] vars (e.2.substM f)) :
    D.Obeys [] (List.flatMap fun e => vars e.2) (substFieldsM f fs) := by
  induction fs with
  | nil => exact .pure (by simp)
  | cons e fs ih =>
    obtain ⟨he, hfs⟩ := forall_mem_cons.mp h
    refine he.bind fun u => (ih hfs).given_nil.bind fun us => .pure ?_
    simp

/-- **A replacement keeps a discipline** that it keeps at every variable. -/
theorem substM_obeys {t : Ty} (h : ∀ v ∈ t.vars, D.Obeys [] vars (f v)) : D.Obeys [] vars (t.substM f) := by
  induction t using structural with
  | simple n => exact .pure (by simp [vars])
  | func a r ha hr =>
    simp only [vars, mem_append] at h
    refine (ha fun v hv => h v (Or.inl hv)).bind fun u => ?_
    refine (hr fun v hv => h v (Or.inr hv)).given_nil.bind fun w => .pure ?_
    simp [vars]
  | record n as fs has hfs =>
    simp only [vars, varsList_eq_flatMap, varsFields_eq_flatMap, mem_append, mem_flatMap] at h
    refine (substListM_obeys fun t ht =>
      has t ht fun v hv => h v (Or.inl ⟨t, ht, hv⟩)).bind fun us => ?_
    refine (substFieldsM_obeys fun e he =>
      hfs e he fun v hv => h v (Or.inr ⟨e, he, hv⟩)).given_nil.bind fun gs => .pure ?_
    simp [vars, varsList_eq_flatMap, varsFields_eq_flatMap]
  | algebraic n as os has hos =>
    simp only [vars, varsList_eq_flatMap, mem_append, mem_flatMap] at h
    refine (substListM_obeys fun t ht =>
      has t ht fun v hv => h v (Or.inl ⟨t, ht, hv⟩)).bind fun us => ?_
    refine (substListM_obeys fun t ht =>
      hos t ht fun v hv => h v (Or.inr ⟨t, ht, hv⟩)).given_nil.bind fun ps => .pure ?_
    simp [vars, varsList_eq_flatMap]
  | recursive n as has =>
    simp only [vars, varsList_eq_flatMap, mem_flatMap] at h
    refine (substListM_obeys fun t ht => has t ht fun v hv => h v ⟨t, ht, hv⟩).bind fun us => ?_
    exact .pure (by simp [vars, varsList_eq_flatMap])
  | union ms hms =>
    simp only [vars, varsList_eq_flatMap, mem_flatMap] at h
    refine (substListM_obeys fun t ht => hms t ht fun v hv => h v ⟨t, ht, hv⟩).bind fun us => ?_
    refine .pure fun v hv => ?_
    rw [mem_vars_join] at hv
    exact mem_append_right _ (mem_flatMap.mpr hv)
  | var v => exact h v (by simp)

end Replacement

/-! ## Copies -/

namespace Copying

variable {a : Arena} {pinned : List Nat} {F : Fragment}

/-- **What copying keeps**, seen from the arena at its start: no variable is bound on the way, the
    counterparts are new variables, and a copy consists of new variables and of pinned ones from the
    fragment of the originals. -/
def discipline (a : Arena) (pinned : List Nat) (F : Fragment) : Discipline Copying TyVar where
  Inv c := a.Extends c.arena ∧ (∀ id, c.arena.binding? id = a.binding? id) ∧
    ∀ e ∈ c.counterparts, a.size ≤ e.2.id ∧ c.arena.name? e.2.id = some e.2.name
  Step c d := c.arena.Extends d.arena
  Out c v := v.id ∈ pinned ∧ F.vars v ∨ a.size ≤ v.id ∧ c.arena.name? v.id = some v.name
  refl c := .refl c.arena
  trans h h' := h.trans h'
  mono := by
    rintro c d v hstep (hpinned | ⟨hsize, hname⟩)
    · exact Or.inl hpinned
    · exact Or.inr ⟨hsize, by rw [hstep.name? _ (Arena.lt_size_of_name? hname), hname]⟩

/-- The three ways to rename a variable. -/
theorem run_rename (pinned : List Nat) (v : TyVar) (c : Copying) :
    (rename pinned v).run c =
      if pinned.contains v.id then (.var v, c)
      else match c.counterparts.lookup v.id with
        | some w => (.var w, c)
        | none => (.var c.arena.fresh.1, ⟨c.arena.fresh.2, (v.id, c.arena.fresh.1) :: c.counterparts⟩) := by
  by_cases h : pinned.contains v.id
  · simp only [rename, if_pos h]
    rfl
  · simp only [rename, if_neg h]
    cases hw : c.counterparts.lookup v.id with
    | some w =>
      change (match c.counterparts.lookup v.id with | some w => _ | none => _ : StateM Copying Ty) c = _
      rw [hw]
      rfl
    | none =>
      change (match c.counterparts.lookup v.id with | some w => _ | none => _ : StateM Copying Ty) c = _
      rw [hw]
      rfl

theorem rename_obeys {v : TyVar} (hv : F.vars v) : (discipline a pinned F).Obeys [] vars (rename pinned v) := by
  intro c hc _
  obtain ⟨hgrows, hsame, hparts⟩ := hc
  rw [run_rename]
  split
  · rename_i hpinned
    refine ⟨⟨hgrows, hsame, hparts⟩, .refl _, fun w hw => Or.inl ?_⟩
    rw [mem_singleton.mp hw]
    exact ⟨contains_iff_mem.mp hpinned, hv⟩
  · split
    · rename_i w hlookup
      refine ⟨⟨hgrows, hsame, hparts⟩, .refl _, fun x hx => Or.inr ?_⟩
      rw [mem_singleton.mp hx]
      exact hparts _ (mem_of_lookup hlookup)
    · have hfresh : a.size ≤ c.arena.fresh.1.id ∧
          c.arena.fresh.2.name? c.arena.fresh.1.id = some c.arena.fresh.1.name :=
        ⟨hgrows.size_le, c.arena.name?_fresh_self⟩
      refine ⟨⟨hgrows.trans (.of_fresh _), fun id => ?_, fun e he => ?_⟩, .of_fresh _, fun x hx => Or.inr ?_⟩
      · rw [Arena.binding?_fresh, hsame]
      · rcases mem_cons.mp he with rfl | he
        · exact hfresh
        · obtain ⟨hsize, hname⟩ := hparts e he
          exact ⟨hsize, by rw [Arena.name?_fresh _ (Arena.lt_size_of_name? hname), hname]⟩
      · rw [mem_singleton.mp hx]
        exact hfresh

/-- The copy of a type leads through the bindings of the arena at the start. -/
theorem copyWithin_obeys (ha : a.Closed F) (hops : Nat) {t : Ty} (ht : t.In F) :
    (discipline a pinned F).Obeys [] vars (copyWithin pinned hops t) := by
  induction hops generalizing t with
  | zero => exact substM_obeys fun v hv => rename_obeys (ht.vars hv)
  | succ hops ih =>
    refine substM_obeys fun v hv => .get_bind fun c hc => ?_
    cases hb : c.arena.binding? v.id with
    | some b =>
      rw [hc.2.1] at hb
      exact ih (ha v b (ht.vars hv) hb)
    | none => exact rename_obeys (ht.vars hv)

theorem copyAll_obeys (pinned : List Nat) (ha : a.Closed F) (ts : List Ty) (hts : ∀ t ∈ ts, t.In F) :
    (discipline a pinned F).Obeys [] (List.flatMap vars) (copyAll pinned ts) := by
  induction ts with
  | nil => exact .pure (by simp)
  | cons t ts ih =>
    obtain ⟨ht, hts⟩ := forall_mem_cons.mp hts
    have hcopy : (discipline a pinned F).Obeys [] vars (copy pinned t) :=
      .get_bind fun c _ => copyWithin_obeys ha _ ht
    refine hcopy.bind fun u => (ih hts).given_nil.bind fun us => .pure ?_
    simp

/-- **A series of copies from the start**: what was kept, and what the copies consist of. -/
theorem run_copyAll (ha : a.Closed F) {ts us : List Ty} {c : Copying} (hts : ∀ t ∈ ts, t.In F)
    (h : (copyAll pinned ts).run { arena := a } = (us, c)) :
    (discipline a pinned F).Inv c ∧ ∀ u ∈ us, ∀ v ∈ u.vars, (discipline a pinned F).Out c v := by
  have hobeys := copyAll_obeys pinned ha ts hts { arena := a } ⟨.refl a, fun _ => rfl, by simp⟩ (by simp)
  rw [h] at hobeys
  exact ⟨hobeys.1, fun u hu v hv => hobeys.2.2 v (mem_flatMap.mpr ⟨u, hu, hv⟩)⟩

end Copying

/-! ## Looking symbols up -/

/-- All types. -/
def Fragment.everything : Fragment := ⟨fun _ => True, True, True, True, True⟩

theorem Ty.in_everything (t : Ty) : t.In .everything :=
  in_of_vars trivial trivial trivial trivial fun _ _ => trivial

/-- What looking a symbol up gives: nothing if it has no candidates, and the union of their copies else. -/
theorem typeOf_cases (e : Environment) (a : Arena) (l : Locator) :
    (e.candidates l = [] ∧ e.typeOf a l = (none, a)) ∨
      ∃ copies c, (Copying.copyAll (e.pinnedIds a) (e.candidates l)).run { arena := a } = (copies, c) ∧
        e.typeOf a l = (union? (copies.map c.arena.expose), c.arena) := by
  unfold Environment.typeOf
  cases h : e.candidates l with
  | nil => exact Or.inl ⟨rfl, rfl⟩
  | cons t ts => exact Or.inr ⟨_, _, rfl, rfl⟩

/-- **Looking a symbol up binds nothing**: variables are handed out for the copies, and that is all. -/
theorem typeOf_same (e : Environment) (a : Arena) (l : Locator) :
    a.Extends (e.typeOf a l).2 ∧ ∀ id, (e.typeOf a l).2.binding? id = a.binding? id := by
  rcases typeOf_cases e a l with ⟨_, h⟩ | ⟨copies, c, hrun, h⟩
  · rw [h]
    exact ⟨.refl a, fun _ => rfl⟩
  · have hcopy := Copying.run_copyAll (F := .everything) (fun _ t _ _ => t.in_everything)
      (fun t _ => t.in_everything) hrun
    rw [h]
    exact ⟨hcopy.1.1, hcopy.1.2.1⟩

/-- Looking a symbol up in a context changes its arena at most, and no binding in it. -/
theorem Context.typeOf_spec (c : Context) (l : Locator) :
    ∃ arena, (c.typeOf l).2 = { c with store := { c.store with arena } } ∧ c.store.arena.Extends arena ∧
      (∀ id, arena.binding? id = c.store.arena.binding? id) ∧
      ∀ t, (c.typeOf l).1 = .ok t → c.environment.typeOf c.store.arena l = (some t, arena) := by
  unfold Context.typeOf
  extract_lets loaded
  by_cases hloaded : loaded
  · rw [if_pos hloaded]
    obtain ⟨hgrows, hsame⟩ := typeOf_same c.environment c.store.arena l
    cases hrun : c.environment.typeOf c.store.arena l with
    | mk result arena =>
      rw [hrun] at hgrows hsame
      refine ⟨arena, ?_⟩
      cases result with
      | some t => exact ⟨rfl, hgrows, hsame, fun u hu => by rw [Except.ok.inj hu]⟩
      | none => exact ⟨rfl, hgrows, hsame, nofun⟩
  · rw [if_neg hloaded]
    refine ⟨c.store.arena, ?_⟩
    split
    · exact ⟨rfl, .refl _, fun _ => rfl, nofun⟩
    · exact ⟨rfl, .refl _, fun _ => rfl, nofun⟩

end UnionTyping
