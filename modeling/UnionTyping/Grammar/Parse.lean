/-!
# `Grammar.Parse` — reading text by ordered choice

A parser reads a prefix of what is left of a text, or fails. Choice is ordered: the second alternative is
tried only if the first one fails, from the same place.

Beside its result every parser reports the furthest place at which something expected was not found, and
what was expected there. These reports are merged over everything that was tried, so that a text that cannot
be read is explained by the furthest failure of all. `quiet` parsers report nothing.
-/

namespace UnionTyping
namespace Grammar

/-! ## Places and reports -/

/-- What is left of a text, and the byte offset at which it starts. -/
structure Cursor where
  offset : Nat
  rest : List Char
deriving DecidableEq

/-- The cursor at the start of a text. -/
def Cursor.start (text : String) : Cursor :=
  ⟨0, text.toList⟩

/-- The furthest place of failure, and what was expected there. -/
structure Failures where
  offset : Nat := 0
  expected : List String := []
deriving DecidableEq

/-- The further one of two reports; at the same place, what either expected. -/
def Failures.merge (f g : Failures) : Failures :=
  if f.offset < g.offset then g
  else if g.offset < f.offset then f
  else ⟨f.offset, f.expected ++ g.expected.filter fun t => !f.expected.contains t⟩

/-- What a parser gives: the value read and the place behind it unless it fails, and its report. -/
structure Reply (α : Type) where
  result : Option (α × Cursor)
  failures : Failures := {}

/-- A parser. -/
def Parse (α : Type) := Cursor → Reply α

namespace Parse

variable {α : Type}

/-! ## Combining parsers -/

instance : Monad Parse where
  pure a := fun c => ⟨some (a, c), {}⟩
  bind p f := fun c =>
    match p c with
    | ⟨none, failures⟩ => ⟨none, failures⟩
    | ⟨some (a, c), failures⟩ =>
        let reply := f a c
        ⟨reply.result, failures.merge reply.failures⟩

/-- The first parser or, if it fails, the second one from the same place. -/
def orElse (p : Parse α) (q : Unit → Parse α) : Parse α := fun c =>
  match p c with
  | ⟨some r, failures⟩ => ⟨some r, failures⟩
  | ⟨none, failures⟩ =>
      let reply := q () c
      ⟨reply.result, failures.merge reply.failures⟩

instance : OrElse (Parse α) := ⟨orElse⟩

/-- Fails without a report. -/
def fail : Parse α := fun _ => ⟨none, {}⟩

/-- Fails, and reports what was expected. -/
def expected (token : String) : Parse α := fun c => ⟨none, ⟨c.offset, [token]⟩⟩

/-- The same parser without its report. -/
def quiet (p : Parse α) : Parse α := fun c => ⟨(p c).result, {}⟩

/-- The first of the parsers that succeeds. -/
def firstOf : List (Parse α) → Parse α
  | [] => fail
  | p :: ps => p <|> firstOf ps

/-- What the parser reads, or nothing. -/
def optional (p : Parse α) : Parse (Option α) :=
  (some <$> p) <|> pure none

/-- Succeeds without reading if the parser fails here. -/
def notFollowedBy (p : Parse α) : Parse Unit := fun c =>
  match (p c).result with
  | some _ => ⟨none, {}⟩
  | none => ⟨some ((), c), {}⟩

/-- Repeats a parser up to its first failure, at most the given number of times. -/
def manyWithin (p : Parse α) : (limit : Nat) → Parse (List α)
  | 0 => pure []
  | limit + 1 => (do return (← p) :: (← manyWithin p limit)) <|> pure []

/-- Repeats a parser up to its first failure. A parser that reads something succeeds no more often than
    there are characters left; the last attempt, which fails, counts for the report. -/
def many (p : Parse α) : Parse (List α) := fun c => manyWithin p (c.rest.length + 1) c

/-! ## Reading characters -/

/-- The present offset. -/
def position : Parse Nat := fun c => ⟨some (c.offset, c), {}⟩

/-- One character of a class. -/
def char (p : Char → Bool) : Parse Char := fun c =>
  match c.rest with
  | x :: rest => if p x then ⟨some (x, ⟨c.offset + x.utf8Size, rest⟩), {}⟩ else ⟨none, {}⟩
  | [] => ⟨none, {}⟩

/-- The longest run of characters of a class, from a place on. -/
def readWhile (p : Char → Bool) (offset : Nat) : List Char → List Char × Cursor
  | [] => ([], ⟨offset, []⟩)
  | x :: rest =>
      if p x then
        let (xs, c) := readWhile p (offset + x.utf8Size) rest
        (x :: xs, c)
      else ([], ⟨offset, x :: rest⟩)

/-- Nothing is lost: what was read and what is left make up the text. -/
theorem readWhile_append (p : Char → Bool) (offset : Nat) (cs : List Char) :
    (readWhile p offset cs).1 ++ (readWhile p offset cs).2.rest = cs := by
  induction cs generalizing offset with
  | nil => rfl
  | cons x rest ih =>
      rw [readWhile]
      split
      · simp only [List.cons_append, ih]
      · rfl

/-- What was read is of the class. -/
theorem of_mem_readWhile {p : Char → Bool} {offset : Nat} {cs : List Char} {x : Char}
    (h : x ∈ (readWhile p offset cs).1) : p x = true := by
  induction cs generalizing offset with
  | nil => simp [readWhile] at h
  | cons y rest ih =>
      rw [readWhile] at h
      split at h
      · rename_i hy
        rcases List.mem_cons.mp h with e | e
        · rw [e]; exact hy
        · exact ih e
      · simp at h

/-- As many characters of a class as there are. -/
def chars (p : Char → Bool) : Parse (List Char) := fun c =>
  ⟨some (readWhile p c.offset c.rest), {}⟩

/-- At least one character of a class. -/
def chars1 (p : Char → Bool) : Parse (List Char) := do
  return (← char p) :: (← chars p)

/-- What is left behind the given characters, if the text goes on with them. -/
def dropExact (offset : Nat) : List Char → List Char → Option Cursor
  | [], rest => some ⟨offset, rest⟩
  | x :: xs, y :: rest => if x = y then dropExact (offset + y.utf8Size) xs rest else none
  | _ :: _, [] => none

/-- Exactly this text; it is expected in quotes. -/
def exact (text : String) : Parse Unit := fun c =>
  match dropExact c.offset text.toList c.rest with
  | some c => ⟨some ((), c), {}⟩
  | none => ⟨none, ⟨c.offset, ["\"" ++ text ++ "\""]⟩⟩

/-- The end of the text. -/
def finish : Parse Unit := fun c =>
  match c.rest with
  | [] => ⟨some ((), c), {}⟩
  | _ :: _ => ⟨none, ⟨c.offset, ["EOF"]⟩⟩

end Parse

/-! ## Reading a whole text -/

/-- Why a text could not be read: the furthest place of failure, and all that was expected there. -/
structure SyntaxError where
  offset : Nat
  expected : List String
deriving DecidableEq

/-- What was expected, in order. -/
def SyntaxError.expectation (e : SyntaxError) : String :=
  " or ".intercalate (e.expected.mergeSort fun s t => decide (s ≤ t))

/-- Reads a whole text. -/
def Parse.run {α : Type} (p : Parse α) (text : String) : Except SyntaxError α :=
  let reply := (do let a ← p; Parse.finish; return a : Parse α) (Cursor.start text)
  match reply.result with
  | some (a, _) => .ok a
  | none => .error ⟨reply.failures.offset, reply.failures.expected⟩

end Grammar
end UnionTyping
