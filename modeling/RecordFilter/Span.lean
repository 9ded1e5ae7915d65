/-!
# Spans

A span is a range of byte offsets in the source, the end excluded.  It may also be
given with its bounds reversed, and is then empty.
-/

namespace RecordFilter

/-- The bytes from offset `start` to offset `stop`, excluded. -/
structure Span where
  start : Nat
  stop : Nat
deriving DecidableEq

namespace Span

/-- The number of bytes in the span. -/
def length (s : Span) : Nat := s.stop - s.start

/-- Whether the span holds no byte. -/
def isEmpty (s : Span) : Bool := s.length == 0

end Span

end RecordFilter
