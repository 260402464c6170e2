import UnionTyping.Proofs.Lines

/-!
# `Proofs.Bytes` — a text as the bytes it is stored in

Offsets count bytes, and what is written to a terminal arrives as bytes, while the text itself is read character by
character. The two views meet in one fact about the encoding: a character below 128 is one byte, its own number, and
all bytes of any other character are from 128 on (`utf8EncodeChar_cases`). So a mark such as a line feed is found in
the bytes exactly where it stands among the characters.
-/

namespace UnionTyping

open List

namespace Text

open Source (byteLength)

/-- The bytes of some characters. -/
def utf8 (cs : List Char) : List UInt8 :=
  cs.flatMap String.utf8EncodeChar

theorem utf8_cons (c : Char) (cs : List Char) : utf8 (c :: cs) = String.utf8EncodeChar c ++ utf8 cs :=
  flatMap_cons

theorem utf8_singleton (c : Char) : utf8 [c] = String.utf8EncodeChar c :=
  flatMap_singleton ..

theorem utf8_append (cs ds : List Char) : utf8 (cs ++ ds) = utf8 cs ++ utf8 ds :=
  flatMap_append

theorem length_utf8 (cs : List Char) : (utf8 cs).length = byteLength cs := by
  induction cs with
  | nil => rfl
  | cons c cs ih => rw [utf8_cons, length_append, String.length_utf8EncodeChar, ih, byteLength]

/-- A text is stored as the bytes of its characters. -/
theorem toUTF8_eq (text : String) : text.toUTF8.data.toList = utf8 text.toList := by
  rw [String.toUTF8_eq_toByteArray, ← String.utf8Encode_toList, List.utf8Encode, toList_data_toByteArray, utf8]

/-! ## Marks -/

/-- **A character is one byte below 128, or several from 128 on.** -/
theorem utf8EncodeChar_cases (c : Char) :
    (c.toNat < 128 ∧ String.utf8EncodeChar c = [UInt8.ofNat c.toNat]) ∨
      (128 ≤ c.toNat ∧ ∀ b ∈ String.utf8EncodeChar c, 128 ≤ b.toNat) := by
  have hval : c.val.toNat = c.toNat := rfl
  unfold String.utf8EncodeChar
  simp only [hval]
  split
  · rename_i hlow
    exact .inl ⟨Nat.lt_succ_of_le hlow, rfl⟩
  · rename_i hhigh
    refine .inr ⟨by omega, ?_⟩
    split <;> [skip; split] <;>
      simp only [forall_mem_cons, UInt8.toNat_ofNat', not_mem_nil, false_implies, implies_true, and_true] <;>
      omega

/-- The byte of a character below 128. -/
def mark (c : Char) : UInt8 :=
  UInt8.ofNat c.toNat

variable {x : Char} {cs : List Char}

theorem utf8EncodeChar_mark (hx : x.toNat < 128) : String.utf8EncodeChar x = [mark x] := by
  rcases utf8EncodeChar_cases x with ⟨-, h⟩ | ⟨hhigh, -⟩
  · exact h
  · omega

/-- A mark is a byte of no other character. -/
theorem mark_mem_utf8EncodeChar (hx : x.toNat < 128) {c : Char} : mark x ∈ String.utf8EncodeChar c ↔ c = x := by
  have hmark : (mark x).toNat = x.toNat := by
    rw [mark, UInt8.toNat_ofNat', Nat.mod_eq_of_lt (by omega)]
  constructor
  · intro hmem
    rcases utf8EncodeChar_cases c with ⟨hc, h⟩ | ⟨-, h⟩
    · have heq := congrArg UInt8.toNat (mem_singleton.mp (h ▸ hmem))
      rw [hmark, UInt8.toNat_ofNat', Nat.mod_eq_of_lt (by omega)] at heq
      exact Char.toNat_inj.mp heq.symm
    · have hlow := h _ hmem
      omega
  · rintro rfl
    rw [utf8EncodeChar_mark hx]
    exact mem_singleton_self _

/-- **A mark is among the bytes exactly if it is among the characters.** -/
theorem mark_mem_utf8 (hx : x.toNat < 128) : mark x ∈ utf8 cs ↔ x ∈ cs := by
  rw [utf8, mem_flatMap]
  simp [mark_mem_utf8EncodeChar hx]

theorem utf8_eq_nil : utf8 cs = [] ↔ cs = [] := by
  constructor
  · intro h
    exact Source.eq_nil_of_byteLength (by rw [← length_utf8, h, length_nil])
  · rintro rfl
    rfl

/-- A mark is the last byte exactly if it is the last character. -/
theorem getLast?_utf8 (hx : x.toNat < 128) : (utf8 cs).getLast? = some (mark x) ↔ cs.getLast? = some x := by
  rcases eq_nil_or_concat cs with rfl | ⟨ds, c, rfl⟩
  · simp [utf8]
  · rw [concat_eq_append, utf8_append, utf8_singleton, getLast?_append_of_ne_nil _ String.utf8EncodeChar_ne_nil,
      getLast?_append_of_ne_nil _ (cons_ne_nil c []), getLast?_singleton, Option.some.injEq]
    constructor
    · intro h
      exact (mark_mem_utf8EncodeChar hx).mp (mem_of_getLast? h)
    · rintro rfl
      rw [utf8EncodeChar_mark hx, getLast?_singleton]

end Text
end UnionTyping
