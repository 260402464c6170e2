import UnionTyping.Proofs.Bytes

/-!
# `Proofs.Positions` — which offsets are shown at their line and column

The line of an offset is one more than the number of line feeds before it, and its column is one more than the number
of bytes since the last of them (`placeBehind`). A file finds them by looking for a line that reaches to the offset.
The lines have no terminators, so between a line and the next one there can be a gap: a carriage return in front of a
line feed, or at the end of the text, belongs to no line, and behind the last line feed there is no line at all.

An offset in such a gap is *stray* (`Stray`), and it is shown at the start of the file. All other offsets, also those
inside a character, are shown where they are. This goes by the recursion of the text in its lines (`Laid.placed`): up to
the first line feed the first line decides, and behind it the lines of the rest do, one line further down.
-/

namespace UnionTyping

open List

namespace Source

open Text (utf8 mark utf8_append utf8_cons utf8_eq_nil length_utf8 mark_mem_utf8 getLast?_utf8)
open Grammar (byteLength_append)

/-! ## Places between bytes -/

variable {after before line : List UInt8}

/-- The byte that ends a line. -/
def lineFeed : UInt8 := 0x0a

/-- The byte that may stand in front of it. -/
def carriageReturn : UInt8 := 0x0d

/-- **The line and the column of the place behind some bytes**, both counted from one. -/
def placeBehind (before : List UInt8) : Nat × Nat :=
  (before.count lineFeed + 1, (before.reverse.takeWhile (· ≠ lineFeed)).length + 1)

/-- **No line reaches to the place**: it is behind the carriage return at the end of a line, or behind the line feed
    at the end of the text. -/
def Stray (before after : List UInt8) : Prop :=
  (before.getLast? = some carriageReturn ∧ (after = [] ∨ after.head? = some lineFeed)) ∨
    (before.getLast? = some lineFeed ∧ after = [])

instance (before after : List UInt8) : Decidable (Stray before after) :=
  inferInstanceAs (Decidable (_ ∨ _))

theorem placeBehind_of_not_mem (h : lineFeed ∉ before) : placeBehind before = (1, before.length + 1) := by
  rw [placeBehind, count_eq_zero.mpr h, takeWhile_ne_of_not_mem (by simpa using h), length_reverse]

/-- Behind a line feed it is one line further down, in the same column. -/
theorem placeBehind_feed (h : lineFeed ∉ line) (before : List UInt8) :
    placeBehind (line ++ lineFeed :: before) = ((placeBehind before).1 + 1, (placeBehind before).2) := by
  have hcolumn : (line ++ lineFeed :: before).reverse.takeWhile (· ≠ lineFeed) =
      before.reverse.takeWhile (· ≠ lineFeed) := by
    rw [reverse_append, reverse_cons, append_assoc, singleton_append, takeWhile_ne_append]
  rw [placeBehind, hcolumn, count_append, count_eq_zero.mpr h, count_cons_self, Nat.zero_add]
  rfl

/-- In front of the first line feed only the end of the line can be stray. -/
theorem stray_iff_of_not_mem {rest : List UInt8} (h : lineFeed ∉ line) (hline : before ++ after = line)
    (hrest : rest = [] ∨ rest.head? = some lineFeed) :
    Stray before (after ++ rest) ↔ after = [] ∧ line.getLast? = some carriageReturn := by
  subst hline
  rw [mem_append, not_or] at h
  have hlast : before.getLast? ≠ some lineFeed := fun hfeed => h.1 (mem_of_getLast? hfeed)
  cases after with
  | nil => simp [Stray, hlast, hrest]
  | cons b after =>
    have hb : b ≠ lineFeed := fun hfeed => h.2 (hfeed ▸ mem_cons_self)
    simp [Stray, hlast, hb]

/-- Behind a line feed a place is stray as it is in the rest, or at the very end. -/
theorem stray_feed : Stray (line ++ lineFeed :: before) after ↔ Stray before after ∨ (before = [] ∧ after = []) := by
  rcases eq_nil_or_concat before with rfl | ⟨bs, b, rfl⟩
  · have hne : lineFeed ≠ carriageReturn := by decide
    simp [Stray, hne]
  · have hlast : (line ++ lineFeed :: (bs ++ [b])).getLast? = (bs ++ [b]).getLast? := by
      rw [← cons_append, ← append_assoc, getLast?_concat, getLast?_concat]
    simp [Stray, concat_eq_append, hlast]

/-! ## Places in lines -/

variable {cs : List Char} {k start : Nat} {ls : List Line}

/-- A line is what lies between two line feeds, without a carriage return at the end. -/
theorem Line.of_eq (start : Nat) (cs : List Char) :
    Line.of start cs = ⟨start, String.ofList (if cs.getLast? = some '\r' then cs.dropLast else cs)⟩ := by
  rcases eq_nil_or_concat cs with rfl | ⟨ds, c, rfl⟩
  · rfl
  · rw [concat_eq_append, getLast?_concat, dropLast_concat, Line.of, reverse_concat]
    by_cases hc : c = '\r'
    · rw [if_pos (by rw [hc]), hc, Line.ofReversed, reverse_reverse]
    · rw [if_neg (by simpa using hc), Line.ofReversed, reverse_cons, reverse_reverse]
      exact fun _ hcons => hc (List.cons.inj hcons).1

theorem Line.touches_of (hk : k ≤ byteLength cs) :
    (Line.of start cs).Touches (start + k) ↔ ¬(k = byteLength cs ∧ cs.getLast? = some '\r') := by
  rw [Line.Touches, Line.stop, Line.of_eq, utf8ByteSize_ofList]
  rcases eq_nil_or_concat cs with rfl | ⟨ds, c, rfl⟩
  · simp [hk]
  · rw [concat_eq_append] at hk ⊢
    rw [getLast?_concat, dropLast_concat]
    by_cases hc : c = '\r'
    · have hlength : byteLength (ds ++ ['\r']) = byteLength ds + 1 := byteLength_append ..
      rw [hc] at hk ⊢
      simp only [if_true, and_true]
      omega
    · rw [if_neg (by simpa using hc)]
      simp [hc, hk]

/-- **A place is shown where it is, or it is stray**: it touches the line whose number and start it has, or no line. -/
def Placed (ls : List Line) (offset : Nat) (before after : List UInt8) : Prop :=
  (¬Stray before after ∧ ∃ n l, ls[n]? = some l ∧ l.Touches offset ∧
      placeBehind before = (n + 1, offset - l.start + 1)) ∨
    (Stray before after ∧ ∀ l ∈ ls, ¬l.Touches offset)

theorem lineFeed_not_mem_utf8 (h : '\n' ∉ cs) : lineFeed ∉ utf8 cs :=
  fun hmem => h ((mark_mem_utf8 (by decide)).mp hmem)

/-- Up to the first line feed the first line decides. -/
theorem placed_in_line {rest : List UInt8} (hcs : '\n' ∉ cs) (hk : k ≤ byteLength cs)
    (hrest : rest = [] ∨ rest.head? = some lineFeed) (hlater : ∀ l ∈ ls, start + byteLength cs < l.start) :
    Placed (Line.of start cs :: ls) (start + k) ((utf8 cs).take k) ((utf8 cs).drop k ++ rest) := by
  have hstray : Stray ((utf8 cs).take k) ((utf8 cs).drop k ++ rest) ↔ k = byteLength cs ∧ cs.getLast? = some '\r' := by
    rw [stray_iff_of_not_mem (lineFeed_not_mem_utf8 hcs) (take_append_drop k _) hrest, drop_eq_nil_iff,
      length_utf8, ← getLast?_utf8 (by decide)]
    exact and_congr_left fun _ => ⟨Nat.le_antisymm hk, fun heq => Nat.le_of_eq heq.symm⟩
  by_cases hgap : k = byteLength cs ∧ cs.getLast? = some '\r'
  · refine .inr ⟨hstray.mpr hgap, forall_mem_cons.mpr ⟨?_, fun l hl htouch => ?_⟩⟩
    · rw [Line.touches_of hk]
      exact not_not_intro hgap
    · have hstart := hlater l hl
      have hreach := htouch.1
      omega
  · refine .inl ⟨mt hstray.mp hgap, 0, _, rfl, (Line.touches_of hk).mpr hgap, ?_⟩
    rw [placeBehind_of_not_mem fun hmem => lineFeed_not_mem_utf8 hcs (mem_of_mem_take hmem), length_take,
      length_utf8, Nat.min_eq_left hk, Line.of_start, Nat.add_sub_cancel_left]

/-- Behind it the rest decides, one line further down. -/
theorem Placed.next {offset : Nat} (h : Placed ls offset before after) (hne : before ≠ [] ∨ after ≠ [])
    (hcs : '\n' ∉ cs) (hoffset : start + byteLength cs < offset) :
    Placed (Line.of start cs :: ls) offset (utf8 cs ++ lineFeed :: before) after := by
  have hstray : Stray (utf8 cs ++ lineFeed :: before) after ↔ Stray before after := by
    rw [stray_feed, or_iff_left]
    rintro ⟨rfl, rfl⟩
    exact hne.elim (fun h => h rfl) fun h => h rfl
  rw [Placed, hstray]
  rcases h with ⟨hfound, n, l, hn, htouch, hplace⟩ | ⟨hgap, hnone⟩
  · refine .inl ⟨hfound, n + 1, l, hn, htouch, ?_⟩
    rw [placeBehind_feed (lineFeed_not_mem_utf8 hcs), hplace]
  · refine .inr ⟨hgap, forall_mem_cons.mpr ⟨fun htouch => ?_, hnone⟩⟩
    have hstop := Nat.le_trans htouch.2 (Line.of_stop_le start cs)
    omega

theorem Laid.placed (h : Laid start cs ls) (hne : cs ≠ []) (hk : k ≤ byteLength cs) :
    Placed ls (start + k) ((utf8 cs).take k) ((utf8 cs).drop k) := by
  induction h generalizing k with
  | empty => exact absurd rfl hne
  | @last start cs hcs _ =>
    have hplaced : Placed [Line.of start cs] (start + k) ((utf8 cs).take k) ((utf8 cs).drop k ++ []) :=
      placed_in_line hcs hk (.inl rfl) fun _ hl => absurd hl not_mem_nil
    rwa [append_nil] at hplaced
  | @next start cs rest ls hcs hrest ih =>
    have hbytes : utf8 (cs ++ '\n' :: rest) = utf8 cs ++ lineFeed :: utf8 rest := by
      rw [utf8_append, utf8_cons]
      rfl
    rw [hbytes]
    by_cases hin : k ≤ byteLength cs
    · rw [take_append_of_le_length (by rwa [length_utf8]), drop_append_of_le_length (by rwa [length_utf8])]
      refine placed_in_line hcs hin (.inr rfl) fun l hl => ?_
      have hstart := hrest.start_le l hl
      omega
    · obtain ⟨j, rfl⟩ : ∃ j, k = byteLength cs + (j + 1) := ⟨k - byteLength cs - 1, by omega⟩
      have hj : j ≤ byteLength rest := by
        have hlength : byteLength (cs ++ '\n' :: rest) = byteLength cs + (1 + byteLength rest) := byteLength_append ..
        omega
      rw [← length_utf8, take_length_add_append, drop_length_add_append, take_succ_cons, drop_succ_cons, length_utf8]
      by_cases hend : rest = []
      · -- behind the last line feed there is no line
        subst hend
        refine .inr ⟨stray_feed.mpr (.inr ⟨by simp [utf8], by simp [utf8]⟩), forall_mem_cons.mpr ⟨fun htouch => ?_,
          fun l hl => absurd rfl (hrest.text_ne_nil hl)⟩⟩
        have hstop := Nat.le_trans htouch.2 (Line.of_stop_le start cs)
        omega
      · have hplaced := ih hend hj
        rw [show start + (byteLength cs + (j + 1)) = start + byteLength cs + 1 + j by omega]
        refine hplaced.next ?_ hcs (by omega)
        by_contra hnone
        rw [not_or, not_not, not_not] at hnone
        have happend := take_append_drop j (utf8 rest)
        rw [hnone.1, hnone.2, append_nil] at happend
        exact hend (utf8_eq_nil.mp happend.symm)

/-! ## Positions -/

/-- The start of the file is not stray. -/
theorem placeBehind_ne_of_stray (h : Stray before after) : placeBehind before ≠ (1, 1) := by
  intro hplace
  obtain ⟨hline, hcolumn⟩ := Prod.mk.inj hplace
  rcases eq_nil_or_concat before with rfl | ⟨bs, b, rfl⟩
  · rcases h with ⟨hlast, -⟩ | ⟨hlast, -⟩
    · cases hlast
    · cases hlast
  · rw [concat_eq_append] at h hline hcolumn
    -- a last byte other than a line feed is in the column, and a line feed is in the line
    by_cases hb : b = lineFeed
    · simp [hb] at hline
    · simp [hb] at hcolumn

/-- **Where the position of an offset is right.** An offset of the text is shown at its line and its column exactly if
    it is not stray; if it is stray, it is shown at the start of the file. -/
theorem position_exact_iff (f : File) {offset : Nat} (h : offset ≤ f.text.utf8ByteSize) :
    let bytes := f.text.toUTF8.data.toList
    (f.position offset = placeBehind (bytes.take offset) ↔ ¬Stray (bytes.take offset) (bytes.drop offset)) ∧
      (Stray (bytes.take offset) (bytes.drop offset) → f.position offset = (1, 1)) := by
  intro bytes
  have hbytes : bytes = utf8 f.text.toList := Text.toUTF8_eq f.text
  have hk : offset ≤ byteLength f.text.toList := by
    rwa [← utf8ByteSize_ofList, String.ofList_toList]
  rw [hbytes]
  by_cases hempty : f.text.toList = []
  · -- the only place of the empty text is its start, which is shown right for want of a line
    have hposition : f.position offset = (1, 1) :=
      File.position_of_not_touches fun l hl => absurd hempty (f.laid.text_ne_nil hl)
    rw [hempty, hposition]
    simp [utf8, placeBehind, Stray]
  · have hplaced := f.laid.placed hempty hk
    rw [Nat.zero_add] at hplaced
    rcases hplaced with ⟨hfound, n, l, hn, htouch, hplace⟩ | ⟨hgap, hnone⟩
    · rw [File.position_of_touches hn htouch, hplace]
      exact ⟨iff_of_true rfl hfound, fun hgap => absurd hgap hfound⟩
    · rw [File.position_of_not_touches hnone]
      exact ⟨iff_of_false (placeBehind_ne_of_stray hgap).symm (not_not_intro hgap), fun _ => rfl⟩

/-- An offset inside a character of a line that ends with a carriage return, and the offset in front of that. -/
theorem position_exact_inside_character :
    let f : File := ⟨"main", "a = 1\r\nb = \"é\"\r\nc = b\r\n"⟩
    13 ≤ f.text.utf8ByteSize ∧ f.position 13 = (2, 7) ∧ f.position 15 = (2, 9) := by
  intro f
  have hsize : 13 ≤ f.text.utf8ByteSize ∧ 15 ≤ f.text.utf8ByteSize := by decide +kernel
  have hinside := (position_exact_iff f hsize.1).1.mpr (by decide +kernel)
  have hend := (position_exact_iff f hsize.2).1.mpr (by decide +kernel)
  exact ⟨hsize.1, hinside.trans (by decide +kernel), hend.trans (by decide +kernel)⟩

/-- **Offsets between lines are lost**: the one between a carriage return and its line feed, and the one behind the
    last line feed. -/
theorem offsets_between_lines_are_lost :
    let f : File := ⟨"main", "a = 1\r\nb = 2\n"⟩
    let bytes := f.text.toUTF8.data.toList
    6 ≤ f.text.utf8ByteSize ∧ placeBehind (bytes.take 6) = (1, 7) ∧ f.position 6 = (1, 1) ∧
      13 ≤ f.text.utf8ByteSize ∧ placeBehind (bytes.take 13) = (3, 1) ∧ f.position 13 = (1, 1) := by
  decide +kernel

end Source
end UnionTyping
