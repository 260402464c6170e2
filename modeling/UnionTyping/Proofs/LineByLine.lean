import UnionTyping.Proofs.Lines
import UnionTyping.Proofs.ReadBack
import UnionTyping.Proofs.Relocation

/-!
# `Proofs.LineByLine` — two modules one below the other

A module is a line and, behind the end of a line, a module again (`lines_finish_iff`). Every line is read alike whether
the text is over behind it or goes on with the end of a line, so a text put in front of another one with a line feed
between them is read as the two texts are read one after the other (`lines_join`, by induction on the first text). The
seam is the only place that needs care: a carriage return at the end of the first text and the line feed behind it end
one line together, where the carriage return alone would end it and leave an empty last line (`lineEnd_seam`).
-/

namespace UnionTyping

open List

namespace Grammar

open Parse
open Source (byteLength)

/-! ## Reading to the end -/

variable {source : Nat} {α : Type}

/-- The parser reads the whole text from here on. -/
def Parse.Finishes (p : Parse α) (c : Cursor) (a : α) : Prop :=
  ∃ stop, (p c).result = some (a, ⟨stop, []⟩)

theorem run_ok_iff {p : Parse α} {text : String} {a : α} : p.run text = .ok a ↔ p.Finishes (.start text) a := by
  constructor
  · intro h
    obtain ⟨⟨stop, rest⟩, hread, hrest⟩ := run_reads h
    subst hrest
    exact ⟨stop, hread⟩
  · rintro ⟨stop, hread⟩
    exact run_of_reads hread

theorem parseProgram_ok_iff {home text : String} {p : Program} :
    parseProgram source home text = .ok p ↔ ∃ ds, (lines source).Finishes (.start text) ds ∧ p = ⟨home, ds⟩ := by
  unfold parseProgram
  constructor
  · intro h
    split at h
    · rename_i ds hrun
      cases h
      exact ⟨ds, run_ok_iff.mp hrun, rfl⟩
    · cases h
  · rintro ⟨ds, hread, rfl⟩
    rw [run_ok_iff.mpr hread]

theorem manyWithin_total (p : Parse α) (limit : Nat) (c : Cursor) : ∃ r, (p.manyWithin limit c).result = some r := by
  cases limit with
  | zero => exact ⟨_, rfl⟩
  | succ limit =>
    rw [manyWithin, result_orElse, result_pure]
    cases ((do return (← p) :: (← p.manyWithin limit) : Parse (List α)) c).result with
    | none => exact ⟨_, rfl⟩
    | some r => exact ⟨r, rfl⟩

/-- **A repetition takes one more, or it is over.** -/
theorem result_many {p : Parse α} {f : α → α} (hp : ∀ n, Mirrors 0 [] (n + 1) n p p f) (hf : ∀ a, f a = a)
    (c : Cursor) :
    (p.many c).result =
      (p c).result.elim (some ([], c)) fun r => (p.many r.2).result.map fun s => (r.1 :: s.1, s.2) := by
  have hunfold : (p.many c).result =
      (((do return (← p) :: (← p.manyWithin c.rest.length)) <|> pure [] : Parse (List α)) c).result := rfl
  rw [hunfold, result_orElse, result_bind]
  cases hread : (p c).result with
  | none => rfl
  | some r =>
    -- What is left is shorter, so either limit is enough for it.
    have hshort : r.2.rest.length < c.rest.length := (hp c.rest.length c (Nat.lt_succ_self _)).2 r.1 r.2 hread
    have hsame : ∀ as : List α, as.map f = as := fun as =>
      (map_congr_left fun a _ => hf a).trans (map_id as)
    have hlimits : (p.manyWithin c.rest.length r.2).result = (p.many r.2).result :=
      (Mirrors.manyWithin hp (Nat.le_refl (r.2.rest.length + 1)) hshort).result_eq hsame (Nat.lt_succ_self _)
    obtain ⟨s, hs⟩ := manyWithin_total p c.rest.length r.2
    rw [Option.bind_some, result_bind, Option.elim_some, ← hlimits, hs]
    rfl

/-! ## Lines -/

/-- A line is always read, be it as an empty one. -/
theorem line_total (source : Nat) (c : Cursor) : ∃ o d, (line source c).result = some (o, d) := by
  have hoptional : ∀ {β : Type} (p : Parse β) (c : Cursor), ∃ r, (p.optional c).result = some r := by
    intro β p c
    rw [Parse.optional, result_orElse, result_pure]
    cases ((some <$> p) c).result with
    | none => exact ⟨_, rfl⟩
    | some r => exact ⟨r, rfl⟩
  have hblanks : ∀ c, ∃ r, (blanks c).result = some r := fun c => ⟨_, rfl⟩
  obtain ⟨r₁, h₁⟩ := hblanks c
  obtain ⟨r₂, h₂⟩ := hoptional (decl source) r₁.2
  obtain ⟨r₃, h₃⟩ := hblanks r₂.2
  obtain ⟨r₄, h₄⟩ := hoptional comment r₃.2
  exact ⟨r₂.1, r₄.2, bind_reads.mpr ⟨_, _, h₁, bind_reads.mpr ⟨_, _, h₂, bind_reads.mpr ⟨_, _, h₃,
    bind_reads.mpr ⟨_, _, h₄, rfl⟩⟩⟩⟩⟩

/-- A line behind the end of the one before it. -/
def nextLine (source : Nat) : Parse (Option Decl) := do
  lineEnd
  line source

theorem result_many_nextLine (source : Nat) (c : Cursor) :
    ((nextLine source).many c).result =
      ((nextLine source) c).result.elim (some ([], c)) fun r =>
        ((nextLine source).many r.2).result.map fun s => (r.1 :: s.1, s.2) := by
  have hmirrors : ∀ n, Mirrors 0 [] (n + 1) n (nextLine source) (nextLine source) (Option.map (Decl.shift 0)) :=
    fun n => .bind (lineEnd_mirrors n) fun _ => line_mirrors source endsLine_nil n
  refine result_many hmirrors (fun o => ?_) c
  cases o with
  | none => rfl
  | some d => rw [Option.map_some, d.shift_zero]

/-- A module is a line and all further lines. -/
theorem lines_finish_iff_many {c d : Cursor} {o : Option Decl} (hline : (line source c).result = some (o, d))
    {ds : List Decl} : (lines source).Finishes c ds ↔
      ∃ ls stop, ((nextLine source).many d).result = some (ls, ⟨stop, []⟩) ∧ ds = o.toList ++ ls.filterMap id := by
  have happend : ∀ ls : List (Option Decl), (o :: ls).filterMap id = o.toList ++ ls.filterMap id := by
    intro ls
    cases o <;> rfl
  constructor
  · rintro ⟨stop, h⟩
    obtain ⟨o', d', hline', h⟩ := bind_reads.mp h
    obtain ⟨rfl, rfl⟩ := Prod.mk.inj (Option.some.inj (hline.symm.trans hline'))
    obtain ⟨ls, e, hmany, h⟩ := bind_reads.mp h
    obtain ⟨rfl, rfl⟩ := pure_reads.mp h
    exact ⟨ls, stop, hmany, happend ls⟩
  · rintro ⟨ls, stop, hmany, rfl⟩
    exact ⟨stop, bind_reads.mpr ⟨o, d, hline, bind_reads.mpr ⟨ls, _, hmany, pure_reads.mpr ⟨happend ls, rfl⟩⟩⟩⟩

/-- Behind a line the text is over, or the line is and a module follows. -/
def Resumes (source : Nat) (c : Cursor) (ds : List Decl) : Prop :=
  c.rest = [] ∧ ds = [] ∨ ∃ u d, (lineEnd c).result = some (u, d) ∧ (lines source).Finishes d ds

/-- **A module is a line, and behind the end of the line a module again.** -/
theorem lines_finish_iff {c d : Cursor} {o : Option Decl} (hline : (line source c).result = some (o, d))
    {ds : List Decl} : (lines source).Finishes c ds ↔ ∃ es, ds = o.toList ++ es ∧ Resumes source d es := by
  rw [lines_finish_iff_many hline, result_many_nextLine]
  unfold Resumes
  cases hend : (lineEnd d).result with
  | none =>
    have hnext : (nextLine source d).result = none := by rw [nextLine, result_bind, hend, Option.bind_none]
    rw [hnext, Option.elim_none]
    constructor
    · rintro ⟨ls, stop, h, rfl⟩
      cases h
      exact ⟨[], rfl, .inl ⟨rfl, rfl⟩⟩
    · rintro ⟨es, rfl, ⟨hrest, rfl⟩ | ⟨u, e, h, -⟩⟩
      · exact ⟨[], d.offset, by rw [← hrest], rfl⟩
      · cases h
  | some r =>
    obtain ⟨u, e⟩ := r
    obtain ⟨o', d', hline'⟩ := line_total source e
    have hnext : (nextLine source d).result = some (o', d') := by
      rw [nextLine, result_bind, hend, Option.bind_some, hline']
    rw [hnext, Option.elim_some]
    constructor
    · rintro ⟨ls, stop, h, rfl⟩
      obtain ⟨⟨ls', f⟩, hmany, h⟩ := Option.map_eq_some_iff.mp h
      cases h
      refine ⟨o'.toList ++ ls'.filterMap id, ?_, .inr ⟨u, e, rfl, ?_⟩⟩
      · cases o' <;> rfl
      · exact (lines_finish_iff_many hline').mpr ⟨ls', stop, hmany, rfl⟩
    · rintro ⟨es, rfl, ⟨hrest, rfl⟩ | ⟨u', e', h, hfinish⟩⟩
      · have hnone : (lineEnd d).result = none := by
          obtain ⟨offset, rest⟩ := d
          subst hrest
          exact lineEnd_refuses offset
        rw [hnone] at hend
        cases hend
      · cases h
        obtain ⟨ls, stop, hmany, rfl⟩ := (lines_finish_iff_many hline').mp hfinish
        refine ⟨o' :: ls, stop, by rw [hmany]; rfl, ?_⟩
        cases o' <;> rfl

/-! ## The seam -/

variable {t cs : List Char}

theorem lineEnd_takes_return (hcs : headIs (· == '\n') cs = false) : lineEnd.Passes ('\r' :: cs) cs := by
  refine .otherwise (.quiet (exact_refuses ?_)) (.after (char_takes rfl).passes fun _ => .pure trivial)
  rintro ⟨rest, hrest⟩
  simp only [String.reduceToList, cons_append, nil_append, List.cons.injEq, true_and] at hrest
  subst hrest
  cases hcs

theorem lineEnd_takes_both (cs : List Char) : lineEnd.Passes ('\r' :: '\n' :: cs) cs :=
  .orElse (.quiet (exact_takes "\r\n" cs))

theorem lineEnd_refuses_other (hcs : headIs isLineEnd cs = false) : lineEnd.Refuses cs := by
  refine .orElse (.quiet (exact_refuses ?_)) (.bind (char_refuses hcs))
  rintro ⟨rest, rfl⟩
  cases hcs

/-- **The seam**: in front of a line feed the end of a line is what it is without it, except where there is none, and
    where a carriage return is all that is left. -/
theorem lineEnd_seam (cs t : List Char) : cs = [] ∨
    cs = ['\r'] ∧ lineEnd.Passes (cs ++ '\n' :: t) t ∧ lineEnd.Passes cs [] ∨
    (∃ ds, ds.length < cs.length ∧ lineEnd.Passes cs ds ∧ lineEnd.Passes (cs ++ '\n' :: t) (ds ++ '\n' :: t)) ∨
    cs ≠ [] ∧ lineEnd.Refuses cs ∧ lineEnd.Refuses (cs ++ '\n' :: t) := by
  cases cs with
  | nil => exact .inl rfl
  | cons x xs =>
    right
    cases hx : isLineEnd x with
    | false => exact .inr (.inr ⟨by simp, lineEnd_refuses_other hx, lineEnd_refuses_other hx⟩)
    | true =>
      rcases eq_of_isLineEnd hx with rfl | rfl
      · cases xs with
        | nil => exact .inl ⟨rfl, lineEnd_takes_both t, lineEnd_takes_return rfl⟩
        | cons y ys =>
          by_cases hy : y = '\n'
          · subst hy
            have hshort : ys.length < ('\r' :: '\n' :: ys).length := by
              simp only [length_cons]
              omega
            exact .inr (.inl ⟨ys, hshort, lineEnd_takes_both ys, lineEnd_takes_both _⟩)
          · have hhead : (y == '\n') = false := by simpa using hy
            exact .inr (.inl ⟨y :: ys, by simp, lineEnd_takes_return hhead, lineEnd_takes_return hhead⟩)
      · exact .inr (.inl ⟨xs, by simp, lineEnd_takes xs, lineEnd_takes _⟩)

/-- Where a parser that goes forward stops, in bytes. -/
theorem Parse.Forward.lands {ds : List Char} {p : Parse α} (hp : p.Forward) (h : p.Passes cs ds) (offset : Nat) :
    ∃ a stop, (p ⟨offset, cs⟩).result = some (a, ⟨stop, ds⟩) ∧ offset + byteLength cs = stop + byteLength ds := by
  obtain ⟨a, stop, hread, -⟩ := h offset
  obtain ⟨xs, hrest, hoffset⟩ := hp.reaches hread
  refine ⟨a, stop, hread, ?_⟩
  simp only at hrest hoffset
  rw [hrest, byteLength_append, hoffset, Nat.add_assoc]

section

variable {offset : Nat} {es : List Decl}
/-- What follows a line end is all there is to what follows the line. -/
theorem resumes_iff {ds : List Char} {stop : Nat} {u : Unit}
    (h : (lineEnd ⟨offset, cs⟩).result = some (u, ⟨stop, ds⟩)) :
    Resumes source ⟨offset, cs⟩ es ↔ (lines source).Finishes ⟨stop, ds⟩ es := by
  constructor
  · rintro (⟨hrest, -⟩ | ⟨u', e, he, hfinish⟩)
    · simp only at hrest
      subst hrest
      rw [lineEnd_refuses offset] at h
      cases h
    · obtain ⟨-, rfl⟩ := Prod.mk.inj (Option.some.inj (h.symm.trans he))
      exact hfinish
  · exact fun hfinish => .inr ⟨u, _, h, hfinish⟩

theorem lines_finish_nil : (lines source).Finishes ⟨offset, []⟩ es ↔ es = [] := by
  have hnothing : (line source).Takes (· = none) [] [] := line_takes_nothing
  obtain ⟨o, stop, hline, rfl⟩ := hnothing offset
  rw [lines_finish_iff hline]
  constructor
  · rintro ⟨es, rfl, ⟨-, rfl⟩ | ⟨u, d, hend, -⟩⟩
    · rfl
    · rw [lineEnd_refuses stop] at hend
      cases hend
  · rintro rfl
    exact ⟨[], rfl, .inl ⟨rfl, rfl⟩⟩

/-- **What follows a line is put together at the seam**, if shorter modules are. -/
theorem resumes_join {rs : List Char}
    (hlines : ∀ {cs offset es}, cs.length < rs.length → ((lines source).Finishes ⟨offset, cs ++ '\n' :: t⟩ es ↔
      ∃ as bs, (lines source).Finishes ⟨offset, cs⟩ as ∧
        (lines source).Finishes ⟨offset + byteLength cs + 1, t⟩ bs ∧ es = as ++ bs)) :
    Resumes source ⟨offset, rs ++ '\n' :: t⟩ es ↔ ∃ as bs, Resumes source ⟨offset, rs⟩ as ∧
      (lines source).Finishes ⟨offset + byteLength rs + 1, t⟩ bs ∧ es = as ++ bs := by
  have hfeed : ∀ cs, byteLength (cs ++ '\n' :: t) = byteLength cs + 1 + byteLength t := by
    intro cs
    have hsize : byteLength ('\n' :: t) = 1 + byteLength t := rfl
    rw [byteLength_append, hsize, Nat.add_assoc]
  rcases lineEnd_seam rs t with rfl | ⟨rfl, hjoined, hlone⟩ | ⟨ds, hshort, halone, hjoined⟩ | ⟨hne, halone, hjoined⟩
  · -- The line in front of the seam is the last one of the first text.
    obtain ⟨u, stop, hend, hstop⟩ := lineEnd_forward.lands (lineEnd_takes t) offset
    rw [nil_append, resumes_iff hend]
    have hlanding : stop = offset + byteLength [] + 1 := by
      have hsize := hfeed []
      rw [nil_append] at hsize
      omega
    subst hlanding
    constructor
    · exact fun hfinish => ⟨[], es, .inl ⟨rfl, rfl⟩, hfinish, rfl⟩
    · rintro ⟨as, bs, ⟨-, rfl⟩ | ⟨u', d, hd, -⟩, hfinish, rfl⟩
      · exact hfinish
      · rw [lineEnd_refuses offset] at hd
        cases hd
  · -- The carriage return ends the line together with the line feed, or alone and in front of an empty line.
    obtain ⟨u, stop, hend, hstop⟩ := lineEnd_forward.lands hjoined offset
    obtain ⟨u', stop', hend', -⟩ := lineEnd_forward.lands hlone offset
    simp only [resumes_iff hend, resumes_iff hend']
    have hlanding : stop = offset + byteLength ['\r'] + 1 := by
      have hsize := hfeed ['\r']
      omega
    subst hlanding
    constructor
    · exact fun hfinish => ⟨[], es, lines_finish_nil.mpr rfl, hfinish, rfl⟩
    · rintro ⟨as, bs, has, hfinish, rfl⟩
      rw [lines_finish_nil.mp has]
      exact hfinish
  · -- A line end inside the first text, with less of this text behind it.
    obtain ⟨u, stop, hend, hstop⟩ := lineEnd_forward.lands hjoined offset
    obtain ⟨u', stop', hend', hstop'⟩ := lineEnd_forward.lands halone offset
    have hlanding : stop = stop' := by
      have hsize := hfeed rs
      have hsize' := hfeed ds
      omega
    subst hlanding
    simp only [resumes_iff hend, resumes_iff hend', hlines hshort, hstop']
  · -- Something else, which ends neither text.
    constructor
    · rintro (⟨hrest, -⟩ | ⟨u, d, hd, -⟩)
      · simp at hrest
      · rw [hjoined offset] at hd
        cases hd
    · rintro ⟨as, bs, ⟨hrest, -⟩ | ⟨u, d, hd, -⟩, -⟩
      · exact absurd hrest hne
      · rw [halone offset] at hd
        cases hd

/-- **Two texts with a line feed between them are read one after the other.** -/
theorem lines_join {ds : List Decl} :
    (lines source).Finishes ⟨offset, cs ++ '\n' :: t⟩ ds ↔ ∃ as bs, (lines source).Finishes ⟨offset, cs⟩ as ∧
      (lines source).Finishes ⟨offset + byteLength cs + 1, t⟩ bs ∧ ds = as ++ bs := by
  induction hlength : cs.length using Nat.strongRecOn generalizing cs offset ds with
  | ind n ih =>
    subst hlength
    obtain ⟨o, d, hline⟩ := line_total source ⟨offset, cs⟩
    obtain ⟨xs, hrest, hoffset⟩ := (line_forward source).reaches hline
    obtain ⟨stop, rs⟩ := d
    simp only at hrest hoffset
    have hjoined : (line source ⟨offset, cs ++ '\n' :: t⟩).result = some (o, ⟨stop, rs ++ '\n' :: t⟩) := by
      have htail : EndsLine ('\n' :: t) := rfl
      have hmoved := (line_mirrors (k := 0) source htail (cs.length + 1) ⟨offset, cs⟩ (Nat.lt_succ_self _)).1
      rw [hline] at hmoved
      cases o with
      | none => exact hmoved
      | some x => simpa [Decl.shift_zero, Cursor.moved] using hmoved
    have hle : rs.length ≤ cs.length := by
      rw [hrest, length_append]
      exact Nat.le_add_left _ _
    have hlanding : stop + byteLength rs = offset + byteLength cs := by
      rw [hrest, byteLength_append, hoffset, Nat.add_assoc]
    have hrests : ∀ {es}, Resumes source ⟨stop, rs ++ '\n' :: t⟩ es ↔ ∃ as bs, Resumes source ⟨stop, rs⟩ as ∧
        (lines source).Finishes ⟨offset + byteLength cs + 1, t⟩ bs ∧ es = as ++ bs := by
      intro es
      rw [resumes_join fun h => ih _ (Nat.lt_of_lt_of_le h hle) rfl, hlanding]
    simp only [lines_finish_iff hjoined, lines_finish_iff hline, hrests]
    constructor
    · rintro ⟨_, rfl, as, bs, has, hbs, rfl⟩
      exact ⟨o.toList ++ as, bs, ⟨as, rfl, has⟩, hbs, (append_assoc ..).symm⟩
    · rintro ⟨_, bs, ⟨as, rfl, has⟩, hbs, rfl⟩
      exact ⟨as ++ bs, append_assoc .., as, bs, has, hbs, rfl⟩

end

/-- A module that stands further on in a text. -/
theorem lines_finish_moved {k : Nat} {ds : List Decl} :
    (lines source).Finishes ⟨k, t⟩ ds ↔ ∃ es, (lines source).Finishes ⟨0, t⟩ es ∧ ds = es.map (Decl.shift k) := by
  have hmoved := (lines_mirrors (k := k) source (t.length + 1) ⟨0, t⟩ (Nat.lt_succ_self _)).1
  simp only [Cursor.moved, Nat.zero_add, append_nil] at hmoved
  unfold Parse.Finishes
  rw [hmoved]
  constructor
  · rintro ⟨stop, h⟩
    obtain ⟨⟨es, d⟩, hread, h⟩ := Option.map_eq_some_iff.mp h
    obtain ⟨rfl, hd⟩ := Prod.mk.inj h
    obtain ⟨offset, rest⟩ := d
    obtain rfl : rest = [] := congrArg Cursor.rest hd
    exact ⟨es, ⟨offset, hread⟩, rfl⟩
  · rintro ⟨es, ⟨stop, hread⟩, rfl⟩
    exact ⟨stop + k, by rw [hread]; rfl⟩

end Grammar

open Grammar

/-- **Modules are read line by line**: a text with a line feed and another text behind it is a module exactly if both
    texts are, and its declarations are those of the first and then those of the second text, as many bytes further on
    as are in front of it. -/
theorem module_reads_line_by_line (source : Nat) (home s t : String) (p : Program) :
    parseProgram source home (s ++ "\n" ++ t) = .ok p ↔
      ∃ q r, parseProgram source home s = .ok q ∧ parseProgram source home t = .ok r ∧
        p = ⟨home, q.decls ++ r.decls.map (Decl.shift (s.utf8ByteSize + 1))⟩ := by
  have htext : Cursor.start (s ++ "\n" ++ t) = ⟨0, s.toList ++ '\n' :: t.toList⟩ := by
    simp [Cursor.start]
  have hsize : Source.byteLength s.toList = s.utf8ByteSize := by
    rw [← Source.utf8ByteSize_ofList, String.ofList_toList]
  simp only [parseProgram_ok_iff, htext, lines_join, Nat.zero_add, hsize]
  constructor
  · rintro ⟨_, ⟨as, bs, has, hbs, rfl⟩, rfl⟩
    obtain ⟨es, hes, rfl⟩ := lines_finish_moved.mp hbs
    exact ⟨⟨home, as⟩, ⟨home, es⟩, ⟨as, has, rfl⟩, ⟨es, hes, rfl⟩, rfl⟩
  · rintro ⟨_, _, ⟨as, has, rfl⟩, ⟨bs, hbs, rfl⟩, rfl⟩
    exact ⟨_, ⟨as, _, has, lines_finish_moved.mpr ⟨bs, hbs, rfl⟩, rfl⟩, rfl⟩

end UnionTyping
