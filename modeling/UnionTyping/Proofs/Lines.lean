import Mathlib.Data.List.Basic
import Mathlib.Data.List.TakeWhile
import UnionTyping.Proofs.Reading

/-!
# `Proofs.Lines` — the lines of a text, and the line that a syntax error shows

`Laid start cs ls` says what the lines of a text are, by the recursion of the text itself: up to the first line
feed there is one line, behind it the others. `File.lines` are the lines in that sense (`File.laid`), and all
that is said about them below is by induction on it: lines do not overlap, a place of the text touches the line
around it and no other, and the byte behind a place touches a line exactly if the place is not at the end of its
line or another line starts right there.

A syntax error is shown by the lines from the one that its first byte touches to the one that the byte behind it
touches. Since an offset that touches no line counts as being in the first line, the offending line is lost if it
is not the first one, the error is at its very end and no further line follows a single line feed
(`syntax_error_shown_iff`).
-/

namespace UnionTyping

open List

namespace Source

open Grammar (byteLength_append)

/-! ## Texts as lines -/

variable {cs rest : List Char} {ls : List Line} {start : Nat}

/-- The line of the characters between two line feeds. -/
def Line.of (start : Nat) (cs : List Char) : Line :=
  Line.ofReversed start cs.reverse

/-- The offset is at a character of the line or just behind the last one. -/
def Line.Touches (l : Line) (offset : Nat) : Prop :=
  l.start ≤ offset ∧ offset ≤ l.stop

instance (l : Line) (offset : Nat) : Decidable (l.Touches offset) :=
  inferInstanceAs (Decidable (l.start ≤ offset ∧ offset ≤ l.stop))

/-- **The lines of a text that starts at an offset.** -/
inductive Laid : Nat → List Char → List Line → Prop
  | empty (start : Nat) : Laid start [] []
  | last {start : Nat} {cs : List Char} : '\n' ∉ cs → cs ≠ [] → Laid start cs [Line.of start cs]
  | next {start : Nat} {cs rest : List Char} {ls : List Line} :
      '\n' ∉ cs → Laid (start + byteLength cs + 1) rest ls →
      Laid start (cs ++ '\n' :: rest) (Line.of start cs :: ls)

theorem byteLength_reverse (cs : List Char) : byteLength cs.reverse = byteLength cs := by
  induction cs with
  | nil => rfl
  | cons c cs ih =>
    rw [reverse_cons, byteLength_append, ih]
    simp only [byteLength]
    omega

theorem Line.ofReversed_eq (start : Nat) (cs : List Char) : Line.ofReversed start cs = Line.of start cs.reverse := by
  rw [Line.of, reverse_reverse]

theorem split_laid_within (start : Nat) (pending cs : List Char) (h : '\n' ∉ pending) :
    Laid start (pending.reverse ++ cs) (Line.split start pending cs) := by
  fun_induction Line.split start pending cs with
  | case1 start => exact .empty start
  | case2 start pending hpending =>
    rw [append_nil, Line.ofReversed_eq]
    exact .last (by simpa using h) (by simpa using hpending)
  | case3 start pending cs ih =>
    rw [Line.ofReversed_eq]
    refine .next (by simpa using h) ?_
    rw [byteLength_reverse]
    exact ih not_mem_nil
  | case4 start pending c cs hc ih =>
    rw [append_cons, ← reverse_cons]
    exact ih (not_mem_cons_of_ne_of_not_mem (Ne.symm hc) h)

/-- The lines of a file are those of its text. -/
theorem File.laid (f : File) : Laid 0 f.text.toList f.lines :=
  split_laid_within 0 [] f.text.toList not_mem_nil

/-! ## Single lines -/

theorem utf8ByteSize_ofList (cs : List Char) : (String.ofList cs).utf8ByteSize = byteLength cs := by
  induction cs with
  | nil => rfl
  | cons c cs ih =>
    rw [← singleton_append, String.ofList_append, String.utf8ByteSize_append, ih, byteLength_append]
    simp [byteLength]

/-- A line holds its characters, except for a carriage return at the end. -/
theorem Line.of_text (start : Nat) (cs : List Char) :
    cs = (Line.of start cs).text.toList ∨ cs = (Line.of start cs).text.toList ++ ['\r'] := by
  unfold Line.of Line.ofReversed
  split
  · rename_i ds hds
    refine .inr ?_
    rw [String.toList_ofList, ← reverse_cons, ← hds, reverse_reverse]
  · exact .inl (by rw [String.toList_ofList, reverse_reverse])

theorem Line.of_start (start : Nat) (cs : List Char) : (Line.of start cs).start = start := by
  unfold Line.of Line.ofReversed
  split <;> rfl

theorem Line.of_stop (start : Nat) (cs : List Char) :
    (Line.of start cs).stop = start + byteLength (Line.of start cs).text.toList := by
  rw [Line.stop, Line.of_start, ← utf8ByteSize_ofList, String.ofList_toList]

theorem Line.of_stop_le (start : Nat) (cs : List Char) : (Line.of start cs).stop ≤ start + byteLength cs := by
  rw [Line.of_stop]
  have hcr : byteLength ['\r'] = 1 := rfl
  rcases Line.of_text start cs with h | h
  · exact Nat.le_of_eq (by rw [← h])
  · have hlength := congrArg byteLength h
    rw [byteLength_append] at hlength
    omega

/-! ## Lines do not overlap -/

variable {l : Line} {offset : Nat}

theorem Laid.start_le (h : Laid start cs ls) : ∀ l ∈ ls, start ≤ l.start := by
  induction h with
  | empty => simp
  | last => simp [Line.of_start]
  | next _ _ ih =>
    refine forall_mem_cons.mpr ⟨Nat.le_of_eq (Line.of_start ..).symm, fun l hl => ?_⟩
    have hstart := ih l hl
    omega

/-- Every line starts behind the one before it. -/
theorem Laid.pairwise (h : Laid start cs ls) : ls.Pairwise fun l m => l.stop < m.start := by
  induction h with
  | empty => exact .nil
  | last => exact pairwise_singleton ..
  | @next start cs rest ls _ hrest ih =>
    refine pairwise_cons.mpr ⟨fun m hm => ?_, ih⟩
    have hstop := Line.of_stop_le start cs
    have hstart := hrest.start_le m hm
    omega

/-- A text that is not empty has a line that starts where it does. -/
theorem Laid.head_start (h : Laid start cs ls) (hcs : cs ≠ []) : ∃ l ∈ ls, l.start = start := by
  cases h with
  | empty => exact absurd rfl hcs
  | last => exact ⟨_, mem_cons_self, Line.of_start ..⟩
  | next => exact ⟨_, mem_cons_self, Line.of_start ..⟩

theorem Laid.text_ne_nil (h : Laid start cs ls) (hl : l ∈ ls) : cs ≠ [] := by
  cases h with
  | empty => cases hl
  | last _ hcs => exact hcs
  | next => simp

/-- A later offset is in a later line. -/
theorem touches_ordered (h : ls.Pairwise fun l m => l.stop < m.start) {i j offset' : Nat} {m : Line}
    (hi : ls[i]? = some l) (hj : ls[j]? = some m) (hl : l.Touches offset) (hm : m.Touches offset')
    (hle : offset ≤ offset') : i ≤ j := by
  refine Nat.le_of_not_lt fun hlt => ?_
  rw [pairwise_iff_getElem] at h
  obtain ⟨hilt, rfl⟩ := List.getElem?_eq_some_iff.mp hi
  obtain ⟨hjlt, rfl⟩ := List.getElem?_eq_some_iff.mp hj
  have hapart := h j i hjlt hilt hlt
  have hstart := hl.1
  have hstop := hm.2
  omega

/-! ## The line around a place -/

variable {after before : List Char} {n : Nat}

/-- The characters around a place of a text, from the last line feed before it to the next one behind it. -/
def lineAround (before after : List Char) : List Char :=
  (before.reverse.takeWhile (· ≠ '\n')).reverse ++ after.takeWhile (· ≠ '\n')

section Marks

variable {α : Type} [DecidableEq α] {mark : α}

/-- Where there is no mark, nothing is cut off at it. -/
theorem takeWhile_ne_of_not_mem {xs : List α} (h : mark ∉ xs) : xs.takeWhile (· ≠ mark) = xs := by
  refine takeWhile_eq_self_iff.mpr fun x hx => ?_
  simpa using ne_of_mem_of_not_mem hx h

/-- What is behind a mark has no part in what is before the first one. -/
theorem takeWhile_ne_append (xs rest : List α) :
    (xs ++ mark :: rest).takeWhile (· ≠ mark) = xs.takeWhile (· ≠ mark) := by
  induction xs with
  | nil => simp
  | cons x xs ih => rw [cons_append, takeWhile_cons, takeWhile_cons, ih]

end Marks

theorem lineAround_of_not_mem (hb : '\n' ∉ before) (ha : '\n' ∉ after) : lineAround before after = before ++ after := by
  rw [lineAround, takeWhile_ne_of_not_mem (by simpa using hb), takeWhile_ne_of_not_mem ha, reverse_reverse]

theorem lineAround_stop (before after rest : List Char) :
    lineAround before (after ++ '\n' :: rest) = lineAround before after := by
  rw [lineAround, takeWhile_ne_append, lineAround]

theorem lineAround_start (cs before after : List Char) :
    lineAround (cs ++ '\n' :: before) after = lineAround before after := by
  rw [lineAround, reverse_append, reverse_cons, append_assoc, singleton_append, takeWhile_ne_append, lineAround]

/-- A place in a text with a line feed is before it or behind it. -/
theorem place_cases (h : before ++ after = cs ++ '\n' :: rest) :
    (∃ ds, cs = before ++ ds ∧ after = ds ++ '\n' :: rest) ∨ ∃ ds, before = cs ++ '\n' :: ds ∧ rest = ds ++ after := by
  rcases append_eq_append_iff.mp h with ⟨ds, hcs, hafter⟩ | ⟨ds, hbefore, hrest⟩
  · exact .inl ⟨ds, hcs, hafter⟩
  · cases ds with
    | nil => exact .inl ⟨[], by simpa using hbefore.symm, by simpa using hrest.symm⟩
    | cons d ds =>
      injection hrest with hd hrest
      exact .inr ⟨ds, by rw [hbefore, hd], hrest⟩

theorem eq_nil_of_byteLength (h : byteLength cs = 0) : cs = [] := by
  cases cs with
  | nil => rfl
  | cons c cs =>
    have hpos := c.utf8Size_pos
    rw [byteLength] at h
    omega

/-- A place that touches a line is before the first line feed if that is the first line, and behind it if it is
    not. -/
theorem Laid.next_cases (hrest : Laid (start + byteLength cs + 1) rest ls)
    (htext : before ++ after = cs ++ '\n' :: rest) (hn : (Line.of start cs :: ls)[n]? = some l)
    (ht : l.Touches (start + byteLength before)) :
    (n = 0 ∧ l = Line.of start cs ∧ ∃ ds, cs = before ++ ds ∧ after = ds ++ '\n' :: rest) ∨
      ∃ k ds, n = k + 1 ∧ ls[k]? = some l ∧ before = cs ++ '\n' :: ds ∧ rest = ds ++ after ∧
        start + byteLength before = start + byteLength cs + 1 + byteLength ds := by
  rcases place_cases htext with ⟨ds, rfl, hafter⟩ | ⟨ds, rfl, hafter⟩
  · cases n with
    | zero => exact .inl ⟨rfl, (Option.some.inj hn).symm, ds, rfl, hafter⟩
    | succ k =>
      have hstart := hrest.start_le l (mem_of_getElem? hn)
      have hlength := byteLength_append before ds
      have htouch := ht.1
      omega
  · have hlength : byteLength (cs ++ '\n' :: ds) = byteLength cs + (1 + byteLength ds) := byteLength_append ..
    cases n with
    | zero =>
      obtain rfl := Option.some.inj hn
      have hstop := Line.of_stop_le start cs
      have htouch := ht.2
      omega
    | succ k => exact .inr ⟨k, ds, rfl, hn, rfl, hafter, by omega⟩

/-- **A place of a text touches the line around it**, whose number is that of the line feeds before the place. -/
theorem Laid.line_around (h : Laid start cs ls) (hcs : before ++ after = cs) (hn : ls[n]? = some l)
    (ht : l.Touches (start + byteLength before)) :
    n = before.count '\n' ∧ l = Line.of l.start (lineAround before after) := by
  induction h generalizing before n with
  | empty => cases hn
  | last hfeed _ =>
    subst hcs
    rw [mem_append, not_or] at hfeed
    obtain ⟨hlt, rfl⟩ := List.getElem?_eq_some_iff.mp hn
    obtain rfl : n = 0 := by simpa using hlt
    rw [count_eq_zero.mpr hfeed.1, lineAround_of_not_mem hfeed.1 hfeed.2, getElem_cons_zero, Line.of_start]
    exact ⟨rfl, rfl⟩
  | next hfeed hrest ih =>
    rcases hrest.next_cases hcs hn ht with ⟨rfl, rfl, ds, rfl, rfl⟩ | ⟨k, ds, rfl, hk, rfl, rfl, hplace⟩
    · rw [mem_append, not_or] at hfeed
      rw [count_eq_zero.mpr hfeed.1, lineAround_stop, lineAround_of_not_mem hfeed.1 hfeed.2, Line.of_start]
      exact ⟨rfl, rfl⟩
    · obtain ⟨hcount, hline⟩ := ih rfl hk (hplace ▸ ht)
      rw [count_append, count_eq_zero.mpr hfeed, count_cons_self, lineAround_start, ← hcount]
      exact ⟨(Nat.zero_add _).symm, hline⟩

/-- If the byte behind a place touches a line, the place is not at the end of its line or the next line starts
    there. -/
theorem Laid.within_or_next {m : Line} (h : Laid start cs ls) (hcs : before ++ after = cs) (hn : ls[n]? = some l)
    (ht : l.Touches (start + byteLength before)) (hm : m ∈ ls) (htm : m.Touches (start + byteLength before + 1)) :
    start + byteLength before < l.stop ∨ ∃ rest, after = '\n' :: rest ∧ rest ≠ [] := by
  induction h generalizing before n with
  | empty => cases hn
  | last _ _ =>
    obtain rfl := mem_singleton.mp hm
    obtain rfl := mem_singleton.mp (mem_of_getElem? hn)
    exact .inl htm.2
  | @next start cs rest ls hfeed hrest ih =>
    rcases hrest.next_cases hcs hn ht with ⟨rfl, rfl, ds, rfl, rfl⟩ | ⟨k, ds, rfl, hk, rfl, rfl, hplace⟩
    · rcases mem_cons.mp hm with rfl | hlater
      · exact .inl htm.2
      · have hstart := Nat.le_trans (hrest.start_le m hlater) htm.1
        have hlength := byteLength_append before ds
        obtain rfl : ds = [] := eq_nil_of_byteLength (by omega)
        exact .inr ⟨rest, rfl, hrest.text_ne_nil hlater⟩
    · rw [hplace] at ht htm ⊢
      refine ih rfl hk ht ?_ htm
      refine (mem_cons.mp hm).resolve_left ?_
      rintro rfl
      have hstop := Line.of_stop_le start cs
      have htop := htm.2
      omega

/-- If a line feed stands at the place and some text behind it, the byte behind the place touches a line. -/
theorem Laid.touched_next (h : Laid start cs ls) (hcs : before ++ '\n' :: rest = cs) (hrest : rest ≠ [])
    (hn : ls[n]? = some l) (ht : l.Touches (start + byteLength before)) :
    ∃ m ∈ ls, m.Touches (start + byteLength before + 1) := by
  induction h generalizing before n with
  | empty => cases hn
  | last hfeed _ =>
    subst hcs
    exact absurd (mem_append_right _ mem_cons_self) hfeed
  | @next start cs rest' ls hfeed hlaid ih =>
    rcases hlaid.next_cases hcs hn ht with ⟨rfl, rfl, ds, rfl, hds⟩ | ⟨k, ds, rfl, hk, rfl, rfl, hplace⟩
    · cases ds with
      | nil =>
        injection hds with _ hrest'
        obtain ⟨m, hm, hstart⟩ := hlaid.head_start (hrest' ▸ hrest)
        refine ⟨m, mem_cons_of_mem _ hm, ?_⟩
        rw [Line.Touches, Line.stop, hstart, append_nil]
        omega
      | cons d ds =>
        injection hds with hd _
        exact absurd (mem_append_right before (hd ▸ mem_cons_self)) hfeed
    · rw [hplace] at ht ⊢
      obtain ⟨m, hm, htouch⟩ := ih rfl hk ht
      exact ⟨m, mem_cons_of_mem _ hm, htouch⟩

/-- **The byte behind a place touches a line** exactly if the place is not at the end of its line or the next line
    starts there. -/
theorem Laid.touched_behind (h : Laid start cs ls) (hcs : before ++ after = cs) (hn : ls[n]? = some l)
    (ht : l.Touches (start + byteLength before)) : (∃ m ∈ ls, m.Touches (start + byteLength before + 1)) ↔
      start + byteLength before < l.stop ∨ ∃ rest, after = '\n' :: rest ∧ rest ≠ [] := by
  constructor
  · rintro ⟨m, hm, htm⟩
    exact h.within_or_next hcs hn ht hm htm
  · rintro (hlt | ⟨rest, rfl, hrest⟩)
    · exact ⟨l, mem_of_getElem? hn, Nat.le_succ_of_le ht.1, hlt⟩
    · exact h.touched_next hcs hrest hn ht

/-! ## Finding lines -/

namespace File

variable {f : File}

theorem findLine_eq_some {k : Nat} (h : findLine offset n ls = some (k, l)) :
    ∃ i, k = n + i ∧ ls[i]? = some l ∧ l.Touches offset := by
  fun_induction findLine offset n ls with
  | case1 => cases h
  | case2 n m ms htouch =>
    obtain ⟨rfl, rfl⟩ := Prod.mk.inj (Option.some.inj h)
    exact ⟨0, rfl, rfl, htouch⟩
  | case3 n m ms _ ih =>
    obtain ⟨i, hk, hi, htouch⟩ := ih h
    exact ⟨i + 1, by omega, hi, htouch⟩

theorem findLine_eq_none_iff : findLine offset n ls = none ↔ ∀ l ∈ ls, ¬l.Touches offset := by
  fun_induction findLine offset n ls with
  | case1 => simp
  | case2 n m ms htouch => exact ⟨by rintro ⟨⟩, fun h => absurd htouch (h m mem_cons_self)⟩
  | case3 n m ms htouch ih =>
    rw [ih, forall_mem_cons]
    exact (and_iff_right htouch).symm

/-- The line of an offset is the one that it touches. -/
theorem position_of_touches (hn : f.lines[n]? = some l) (ht : l.Touches offset) :
    f.position offset = (n + 1, offset - l.start + 1) := by
  unfold position
  split
  · rename_i k m hfind
    obtain ⟨i, rfl, hi, htouch⟩ := findLine_eq_some hfind
    obtain rfl : i = n := Nat.le_antisymm (touches_ordered f.laid.pairwise hi hn htouch ht (Nat.le_refl _))
      (touches_ordered f.laid.pairwise hn hi ht htouch (Nat.le_refl _))
    obtain rfl := Option.some.inj (hi.symm.trans hn)
    rw [Nat.add_comm]
  · rename_i hfind
    exact absurd ht (findLine_eq_none_iff.mp hfind l (mem_of_getElem? hn))

/-- An offset that touches no line is shown at the start of the file. -/
theorem position_of_not_touches (h : ∀ l ∈ f.lines, ¬l.Touches offset) : f.position offset = (1, 1) := by
  rw [position, findLine_eq_none_iff.mpr h]

/-- The lines of a range are those whose numbers lie between the lines of its ends. -/
theorem mem_linesOf {stop : Nat} (hn : f.lines[n]? = some l) : (n + 1, l.text) ∈ f.linesOf start stop ↔
      (f.position start).1 ≤ n + 1 ∧ n + 1 ≤ (f.position stop).1 := by
  have htext : f.lineText? (n + 1) = some l.text := by rw [lineText?, hn]; rfl
  unfold linesOf
  rw [mem_filterMap]
  constructor
  · rintro ⟨k, hk, hshown⟩
    obtain ⟨text, -, heq⟩ := Option.map_eq_some_iff.mp hshown
    obtain ⟨rfl, -⟩ := Prod.mk.inj heq
    rw [List.mem_range'_1] at hk
    omega
  · rintro ⟨hfirst, hlast⟩
    exact ⟨n + 1, List.mem_range'_1.mpr (by omega), by rw [htext]; rfl⟩

/-- **The line of a place is among those of the byte at it** exactly if it is the first line or the byte behind the
    place touches a line. -/
theorem mem_linesOf_byte (hn : f.lines[n]? = some l) (ht : l.Touches offset) :
    (n + 1, l.text) ∈ f.linesOf offset (offset + 1) ↔ n = 0 ∨ ∃ m ∈ f.lines, m.Touches (offset + 1) := by
  rw [mem_linesOf hn, position_of_touches hn ht]
  by_cases hbehind : ∃ m ∈ f.lines, m.Touches (offset + 1)
  · obtain ⟨m, hm, htouch⟩ := hbehind
    obtain ⟨k, hk⟩ := getElem?_of_mem hm
    have hle : n ≤ k := touches_ordered f.laid.pairwise hn hk ht htouch (Nat.le_succ offset)
    rw [position_of_touches hk htouch]
    exact ⟨fun _ => .inr ⟨m, hm, htouch⟩, fun _ => ⟨Nat.le_refl _, Nat.succ_le_succ hle⟩⟩
  · rw [position_of_not_touches (by simpa using hbehind)]
    simp only [hbehind, or_false]
    omega

end File
end Source

/-! ## Syntax errors -/

open Source (byteLength lineAround)

/-- A syntax error is at a place of the text. -/
theorem syntax_error_place {source : Nat} {home text : String} {e : Grammar.SyntaxError}
    (h : parseProgram source home text = .error e ∨ parseExpr source text = .error e) :
    ∃ before after, text.toList = before ++ after ∧ e.offset = byteLength before := by
  rcases h with h | h
  · unfold parseProgram at h
    split at h
    · cases h
    · rename_i e' hrun
      injection h with h
      exact h ▸ (Grammar.lines_forward source).run_error hrun
  · exact (Grammar.expression_forward source).run_error h

/-- **When a syntax error shows the offending line.** The error is at a place of the text. If that place touches a
    line, it is the line around the place, and its number is one more than that of the line feeds before. The report
    shows it exactly if it is the first line, or the error is not at its end, or a single line feed and more text
    follow there. -/
theorem syntax_error_shown_iff (name : String) {source : Nat} {home text : String} {e : Grammar.SyntaxError}
    (h : parseProgram source home text = .error e ∨ parseExpr source text = .error e) :
    let file : Source.File := ⟨name, text⟩
    let span := e.span source
    ∃ before after, text.toList = before ++ after ∧ span.start = byteLength before ∧
      ∀ n l, file.lines[n]? = some l → l.Touches span.start →
        n = before.count '\n' ∧
        (lineAround before after = l.text.toList ∨ lineAround before after = l.text.toList ++ ['\r']) ∧
        ((n + 1, l.text) ∈ file.linesOf span.start span.stop ↔
          n = 0 ∨ span.start < l.stop ∨ ∃ rest, after = '\n' :: rest ∧ rest ≠ []) := by
  intro file span
  obtain ⟨before, after, htext, hoffset⟩ := syntax_error_place h
  have hplace : span.start = 0 + byteLength before := hoffset.trans (Nat.zero_add _).symm
  refine ⟨before, after, htext, hoffset, fun n l hn ht => ?_⟩
  have hshown : (n + 1, l.text) ∈ file.linesOf span.start span.stop ↔ _ := Source.File.mem_linesOf_byte hn ht
  rw [hplace] at ht hshown ⊢
  obtain ⟨hcount, hline⟩ := file.laid.line_around htext.symm hn ht
  refine ⟨hcount, ?_, ?_⟩
  · have htext := Source.Line.of_text l.start (lineAround before after)
    rwa [← hline] at htext
  · rw [hshown, file.laid.touched_behind htext.symm hn ht]

/-- The operand is missing inside the second line. -/
theorem syntax_error_shown_inside_line :
    let text := "x = 1\ny = (1 + )\nz = 2"
    let e : Grammar.SyntaxError :=
      ⟨15, ["\"-\"", "\"+\"", "\"not\"", "identifier", "\"if\"", "\"let\"", "double", "integer", "string", "\"True\"",
        "\"False\"", "\"(\""]⟩
    parseProgram 0 "main" text = .error e ∧
      (2, "y = (1 + )") ∈ (⟨"main", text⟩ : Source.File).linesOf (e.span 0).start (e.span 0).stop := by
  intro text e
  have hfails : parseProgram 0 "main" text = .error e := by decide +kernel
  have hline : (⟨"main", text⟩ : Source.File).lines[1]? = some ⟨6, "y = (1 + )"⟩ := by decide +kernel
  obtain ⟨before, after, -, -, hshown⟩ := syntax_error_shown_iff "main" (.inl hfails)
  obtain ⟨-, -, hiff⟩ := hshown 1 _ hline (by decide +kernel)
  exact ⟨hfails, hiff.mpr (.inr (.inl (by decide +kernel)))⟩

/-- **A last line that breaks off is lost.** The error is at the end of the second line, which the report does not
    show. -/
theorem broken_last_line_is_lost :
    let text := "x = 1\ny = (1 +"
    let file : Source.File := ⟨"main", text⟩
    let e : Grammar.SyntaxError :=
      ⟨14, ["\"-\"", "\"+\"", "\"not\"", "identifier", "\"if\"", "\"let\"", "double", "integer", "string", "\"True\"",
        "\"False\"", "\"(\""]⟩
    parseProgram 0 "main" text = .error e ∧ file.lines[1]? = some ⟨6, "y = (1 +"⟩ ∧
      (⟨6, "y = (1 +"⟩ : Source.Line).Touches (e.span 0).start ∧
      file.linesOf (e.span 0).start (e.span 0).stop = [] := by
  decide +kernel

end UnionTyping
