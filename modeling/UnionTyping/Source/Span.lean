/-!
# `Source.Span` — byte ranges of source files

A span names a source file by its number and a half-open range of byte offsets in it. Things that point
nowhere carry no span at all, so a span always names a file.
-/

namespace UnionTyping

/-- The bytes from `start` up to and without `stop` of source number `source`. -/
structure Span where
  source : Nat
  start : Nat
  stop : Nat
deriving DecidableEq

namespace Span

/-- The number of bytes covered; a range that ends before it starts covers none. -/
def length (s : Span) : Nat :=
  s.stop - s.start

/-- Whether both ends coincide. -/
def isEmpty (s : Span) : Bool :=
  s.start == s.stop

/-- The smallest range that covers both, in the first one's file. -/
def cover (s t : Span) : Span :=
  ⟨s.source, min s.start t.start, max s.stop t.stop⟩

end Span
end UnionTyping
