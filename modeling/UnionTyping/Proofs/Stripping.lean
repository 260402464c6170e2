import UnionTyping.Diagnostic.Report
import UnionTyping.Text.Styled
import UnionTyping.Proofs.Bytes
import Mathlib.Data.List.Induction

/-!
# `Proofs.Stripping` — colours are dropped alike, however the output is split

Whoever prints in colour writes in pieces of any size, and an escape sequence may begin in one piece and end in
another. What must come through is said by positions, without a filter (`Hidden`): a byte is dropped if it lies in
the stretch from some escape byte to the next closing byte.

A pass over a piece keeps to `skim` of the bytes it has seen (`Pass.Tracks`), so pieces behind each other are read as
one (`writeAll_eq`), and `skim` drops exactly the hidden positions (`skim_visible`). Escape and closing byte are
characters of their own in any text, so the bytes of a text are filtered as its characters are (`skim_utf8`).
-/

namespace UnionTyping
namespace Ansi

open List Text

/-! ## Pieces -/

/-- All pieces in turn, with what each of them reports. -/
def Stripper.writeAll (s : Stripper) : List (List UInt8) → Stripper × List Nat
  | [] => (s, [])
  | chunk :: chunks =>
    let (s, count) := s.write chunk
    let (s, counts) := s.writeAll chunks
    (s, count :: counts)

/-- **Inside a piece**: a pass has read `xs`. What it has not handed on yet lies behind `start`, unless a sequence is
    open. -/
structure Pass.Tracks (s : Stripper) (xs : List UInt8) (p : Pass) : Prop where
  inEscape : p.inEscape = (skim openingByte closingByte s.inEscape xs).1
  start : p.start ≤ xs.length
  output : p.output ++ (if p.inEscape then [] else xs.drop p.start) =
    s.output ++ (skim openingByte closingByte s.inEscape xs).2

variable {xs : List UInt8} {p : Pass}

theorem skim_concat (inEscape : Bool) (xs : List UInt8) (b : UInt8) :
    skim openingByte closingByte inEscape (xs ++ [b]) =
    let (inEscape, kept) := skim openingByte closingByte inEscape xs
    if inEscape then (decide (b ≠ closingByte), kept)
    else if b = openingByte then (true, kept) else (false, kept ++ [b]) := by
  rw [skim_append]
  cases skim openingByte closingByte inEscape xs with
  | mk inEscape kept =>
    cases inEscape with
    | true => simp [skim]
    | false => by_cases hb : b = openingByte <;> simp [skim, hb]

/-- **One byte more**, whatever follows it. -/
theorem Pass.Tracks.step {s : Stripper} (h : p.Tracks s xs) (b : UInt8) (ys : List UInt8) :
    (p.step (xs ++ b :: ys) (b, xs.length)).Tracks s (xs ++ [b]) := by
  have hnext := skim_concat s.inEscape xs b
  obtain ⟨inEscape, start, output⟩ := p
  obtain ⟨hopen, hstart, houtput⟩ := h
  have hdrop : (xs ++ [b]).drop start = xs.drop start ++ [b] := drop_append_of_le_length hstart
  have hlater : start ≤ (xs ++ [b]).length := by
    rw [length_append]
    exact Nat.le_add_right_of_le hstart
  generalize skim openingByte closingByte s.inEscape xs = before at hnext hopen houtput
  obtain ⟨_, kept⟩ := before
  subst hopen
  rw [Pass.step, take_left]
  cases inEscape with
  | true =>
    by_cases hb : b = closingByte
    · subst hb
      exact ⟨by simp [hnext], by simp, by simpa [hnext] using houtput⟩
    · exact ⟨by simp [hnext, hb], by simpa [hb] using hlater, by simpa [hnext, hb] using houtput⟩
  | false =>
    by_cases hb : b = openingByte
    · subst hb
      exact ⟨by simp [hnext], by simpa using hlater, by simpa [hnext] using houtput⟩
    · refine ⟨by simp [hnext, hb], by simpa [hb] using hlater, ?_⟩
      simpa [hnext, hb, hdrop, ← append_assoc] using houtput

/-- The whole piece. -/
theorem Pass.Tracks.foldl {s : Stripper} (h : p.Tracks s xs) (ys : List UInt8) :
    ((ys.zipIdx xs.length).foldl (Pass.step (xs ++ ys)) p).Tracks s (xs ++ ys) := by
  induction ys generalizing xs p with
  | nil => simpa using h
  | cons b ys ih =>
    have hrest := ih (h.step b ys)
    simpa [zipIdx_cons] using hrest

/-- **A piece is read from where the one before left off.** -/
theorem write_eq (s : Stripper) (xs : List UInt8) : s.write xs =
    (⟨(skim openingByte closingByte s.inEscape xs).1, s.output ++ (skim openingByte closingByte s.inEscape xs).2⟩,
      xs.length) := by
  have hbegin : Pass.Tracks s [] ⟨s.inEscape, 0, s.output⟩ := ⟨rfl, Nat.le_refl 0, by simp [skim]⟩
  obtain ⟨hopen, hstart, houtput⟩ := hbegin.foldl xs
  simp only [nil_append, length_nil] at hopen hstart houtput
  rw [Stripper.write, ← hopen, ← houtput]
  cases hend : (xs.zipIdx.foldl (Pass.step xs) ⟨s.inEscape, 0, s.output⟩).inEscape with
  | true => simp
  | false =>
    rcases Nat.lt_or_eq_of_le hstart with hlt | heq
    · simp [hlt]
    · simp [heq]

/-- **Pieces are read as one.** -/
theorem writeAll_eq (s : Stripper) (chunks : List (List UInt8)) : s.writeAll chunks =
    (⟨(skim openingByte closingByte s.inEscape chunks.flatten).1,
      s.output ++ (skim openingByte closingByte s.inEscape chunks.flatten).2⟩, chunks.map length) := by
  induction chunks generalizing s with
  | nil => simp [Stripper.writeAll, skim]
  | cons chunk chunks ih => simp [Stripper.writeAll, write_eq, ih, skim_append]

/-! ## Positions -/

variable {b : UInt8}

/-- The position lies in a stretch that an escape byte opens, and that no byte before it has closed. -/
def Hidden (xs : List UInt8) (i : Nat) : Prop :=
  ∃ j < i + 1, xs[j]? = some openingByte ∧ ∀ k < i, j ≤ k → xs[k]? ≠ some closingByte

instance (xs : List UInt8) : DecidablePred (Hidden xs) :=
  fun i => inferInstanceAs
    (Decidable (∃ j < i + 1, xs[j]? = some openingByte ∧ ∀ k < i, j ≤ k → xs[k]? ≠ some closingByte))

/-- The bytes that lie in no stretch. -/
def visible (xs : List UInt8) : List UInt8 :=
  ((List.range xs.length).filter fun i => ¬Hidden xs i).filterMap (xs[·]?)

/-- Only the bytes up to a position hide it. -/
theorem hidden_append {ys : List UInt8} {i : Nat} (hi : i < xs.length) : Hidden (xs ++ ys) i ↔ Hidden xs i := by
  refine exists_congr fun j => and_congr_right fun hj => ?_
  rw [getElem?_append_left (by omega)]
  refine and_congr_right fun _ => forall_congr' fun k => forall_congr' fun hk => ?_
  rw [getElem?_append_left (by omega)]

/-- The byte behind the others is hidden if a stretch is open there, or if it opens one. -/
theorem hidden_concat : Hidden (xs ++ [b]) xs.length ↔ Hidden xs xs.length ∨ b = openingByte := by
  have hsame : ∀ k < xs.length, (xs ++ [b])[k]? = xs[k]? := fun k hk => getElem?_append_left hk
  constructor
  · rintro ⟨j, hj, hopens, hcloses⟩
    rcases Nat.lt_succ_iff_lt_or_eq.mp hj with hlt | rfl
    · exact .inl ⟨j, hj, hsame j hlt ▸ hopens, fun k hk hjk => hsame k hk ▸ hcloses k hk hjk⟩
    · simpa using Or.inr hopens
  · rintro (⟨j, hj, hopens, hcloses⟩ | rfl)
    · have hlt : j < xs.length := (List.getElem?_eq_some_iff.mp hopens).1
      exact ⟨j, hj, (hsame j hlt).trans hopens, fun k hk hjk => hsame k hk ▸ hcloses k hk hjk⟩
    · exact ⟨xs.length, Nat.lt_succ_self _, by simp, fun k hk hle => absurd hk (Nat.not_lt.mpr hle)⟩

/-- Behind a byte a stretch is open if it was open or is opened there, and the byte does not close it. -/
theorem hidden_end : Hidden (xs ++ [b]) (xs ++ [b]).length ↔
    (Hidden xs xs.length ∨ b = openingByte) ∧ b ≠ closingByte := by
  rw [← hidden_concat, length_append, length_singleton]
  have hlast : (xs ++ [b])[xs.length]? = some b := by simp
  constructor
  · rintro ⟨j, -, hopens, hcloses⟩
    have hj : j < xs.length + 1 := by simpa using (List.getElem?_eq_some_iff.mp hopens).1
    refine ⟨⟨j, hj, hopens, fun k hk => hcloses k (Nat.lt_succ_of_lt hk)⟩, ?_⟩
    exact fun heq => hcloses xs.length (Nat.lt_succ_self _) (Nat.le_of_lt_succ hj) (heq ▸ hlast)
  · rintro ⟨⟨j, hj, hopens, hcloses⟩, hb⟩
    refine ⟨j, Nat.lt_succ_of_lt hj, hopens, fun k hk hjk => ?_⟩
    rcases Nat.lt_succ_iff_lt_or_eq.mp hk with hlt | rfl
    · exact hcloses k hlt hjk
    · simpa [hlast] using hb

theorem visible_concat : visible (xs ++ [b]) =
    visible xs ++ if Hidden xs xs.length ∨ b = openingByte then [] else [b] := by
  have hearlier : ∀ i ∈ List.range xs.length, decide (¬Hidden (xs ++ [b]) i) = decide (¬Hidden xs i) :=
    fun i hi => decide_eq_decide.mpr (not_congr (hidden_append (mem_range.mp hi)))
  have hbytes : ∀ i ∈ (List.range xs.length).filter fun i => ¬Hidden xs i, (xs ++ [b])[i]? = xs[i]? :=
    fun i hi => getElem?_append_left (mem_range.mp (mem_filter.mp hi).1)
  rw [visible, length_append, length_singleton, range_succ, filter_append, filterMap_append, filter_congr hearlier,
    filterMap_congr hbytes, visible]
  congr 1
  by_cases hb : Hidden xs xs.length ∨ b = openingByte
  · simp [hb, hidden_concat.mpr hb]
  · simp [hb, mt hidden_concat.mp hb]

/-- **The filter drops exactly the hidden positions**, and a sequence is open behind them if the end is hidden. -/
theorem skim_visible (xs : List UInt8) : ((skim openingByte closingByte false xs).1 = true ↔ Hidden xs xs.length) ∧
    (skim openingByte closingByte false xs).2 = visible xs := by
  induction xs using reverseRecOn with
  | nil => simp [skim, Hidden, visible]
  | append_singleton xs b ih =>
    rw [skim_concat, hidden_end, visible_concat]
    generalize skim openingByte closingByte false xs = before at ih
    obtain ⟨inEscape, kept⟩ := before
    obtain ⟨hopen, rfl⟩ := ih
    cases inEscape with
    | true => simp [hopen.mp rfl]
    | false =>
      have hclosed : ¬Hidden xs xs.length := fun h => Bool.false_ne_true (hopen.mpr h)
      have hmarks : openingByte ≠ closingByte := by decide
      by_cases hb : b = openingByte
      · simp [hclosed, hb, hmarks]
      · simp [hclosed, hb]

/-! ## Texts -/

/-- Symbols that are no marks are kept or dropped all together. -/
theorem skim_block (hopens : openingByte ∉ xs) (hcloses : closingByte ∉ xs) (inEscape : Bool) :
    skim openingByte closingByte inEscape xs = (inEscape, if inEscape then [] else xs) := by
  cases inEscape with
  | false => exact skim_of_not_mem hopens
  | true =>
    induction xs with
    | nil => rfl
    | cons x xs ih =>
      obtain ⟨hx, hrest⟩ := not_or.mp (mt mem_cons.mpr hcloses)
      rw [skim, decide_eq_true (Ne.symm hx)]
      exact ih (fun hmem => hopens (mem_cons_of_mem x hmem)) hrest

/-- **The bytes of a text are filtered as its characters are.** -/
theorem skim_utf8 (inEscape : Bool) (cs : List Char) : skim openingByte closingByte inEscape (utf8 cs) =
    ((skim opening closing inEscape cs).1, utf8 (skim opening closing inEscape cs).2) := by
  induction cs generalizing inEscape with
  | nil => rfl
  | cons c cs ih =>
    rw [utf8_cons, skim_append]
    by_cases hopens : c = opening
    · subst hopens
      have hbyte : String.utf8EncodeChar opening = [openingByte] := utf8EncodeChar_mark (by decide)
      have hmarks : openingByte ≠ closingByte ∧ opening ≠ closing := by decide
      cases inEscape <;> simp [hbyte, skim, ih, hmarks]
    by_cases hcloses : c = closing
    · subst hcloses
      have hbyte : String.utf8EncodeChar closing = [closingByte] := utf8EncodeChar_mark (by decide)
      have hmarks : closingByte ≠ openingByte ∧ closing ≠ opening := by decide
      cases inEscape <;> simp [hbyte, skim, ih, hmarks, utf8_cons]
    have hno : openingByte ∉ String.utf8EncodeChar c :=
      mt (mark_mem_utf8EncodeChar (x := opening) (by decide)).mp hopens
    have hno' : closingByte ∉ String.utf8EncodeChar c :=
      mt (mark_mem_utf8EncodeChar (x := closing) (by decide)).mp hcloses
    rw [skim_block hno hno', ih]
    cases inEscape <;> simp [skim, hopens, hcloses, utf8_cons]

/-- What comes through of the bytes of a text. -/
theorem output_of_text {chunks : List (List UInt8)} {text : String} (h : chunks.flatten = text.toUTF8.data.toList) :
    (Stripper.writeAll {} chunks).1.output = (strip text).toUTF8.data.toList := by
  rw [writeAll_eq, h, toUTF8_eq, toUTF8_eq, skim_utf8, strip, String.toList_ofList, nil_append]

/-- **Stripping does not depend on how the output is split.** Whatever the pieces are, what comes through are the bytes
    of all of them that lie in no stretch from an escape byte to the next closing one, and every piece is reported as
    written whole. So a report that is written in colour, in any pieces, comes through as its plain text, and so does
    all that is made of styled pieces, such as a typed tree. -/
theorem stripping_ignores_splits (chunks : List (List UInt8)) :
    (Stripper.writeAll {} chunks).1.output = visible chunks.flatten ∧
      (Stripper.writeAll {} chunks).2 = chunks.map length ∧
      (∀ (r : Report) (sources : Source.Library), chunks.flatten = (r.render sources).toUTF8.data.toList →
        (Stripper.writeAll {} chunks).1.output = (r.plain sources).toUTF8.data.toList) ∧
      ∀ tree : Styled, chunks.flatten = tree.painted.toUTF8.data.toList →
        (Stripper.writeAll {} chunks).1.output = tree.plain.toUTF8.data.toList := by
  refine ⟨?_, by rw [writeAll_eq], fun r sources => output_of_text, fun tree => output_of_text⟩
  rw [writeAll_eq]
  exact (skim_visible _).2

/-- The first cut goes through an escape sequence, the second one through a letter of two bytes. -/
theorem stripping_ignores_splits_inside :
    let tree : Styled := [Styled.keyword "é"]
    let bytes := tree.painted.toUTF8.data.toList
    let chunks := [bytes.take 2, (bytes.drop 2).take 4, bytes.drop 6]
    (Stripper.writeAll {} chunks).1.output = "é".toUTF8.data.toList ∧ (Stripper.writeAll {} chunks).2 = [2, 4, 5] := by
  intro tree bytes chunks
  have hwhole : chunks.flatten = bytes := by decide +kernel
  have hplain : tree.plain = "é" := by decide +kernel
  obtain ⟨-, hcounts, -, htree⟩ := stripping_ignores_splits chunks
  exact ⟨hplain ▸ htree tree hwhole, hcounts.trans (by decide +kernel)⟩

end Ansi
end UnionTyping
