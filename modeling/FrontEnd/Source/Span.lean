import FrontEnd.Source.Text
/-!
# FrontEnd — spans

A `Span` is a run of bytes of the source. Names are spans too: what a
name says is the text it covers, and two names are equal when they read
the same, wherever they stand.
-/

namespace FrontEnd

/-- The `len` bytes of the source from `start` on. -/
structure Span where
  start : Nat
  len : Nat
deriving DecidableEq

namespace Span

/-- The span of what has no place in the source. -/
def zero : Span := ⟨0, 0⟩

/-- The first byte after the span. -/
def stop (s : Span) : Nat := s.start + s.len

def isEmpty (s : Span) : Bool := s.len == 0

/-- The smallest span that covers both. -/
def merge (s t : Span) : Span :=
  let start := min s.start t.start
  ⟨start, max s.stop t.stop - start⟩

/-- The text the span covers, empty when it does not lie in the source. -/
def read (s : Span) (source : String) : String :=
  (sliceBytes? source s.start s.stop).getD ""

/-- The printed form: where the span starts and where it stops. -/
def text (s : Span) : String := Nat.repr s.start ++ ".." ++ Nat.repr s.stop

end Span

end FrontEnd
