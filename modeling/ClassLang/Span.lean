/-! Positions in the text of one unit. -/

namespace ClassLang

/-- A half-open range of offsets. -/
structure Span where
  start : Nat
  stop : Nat
deriving Repr, DecidableEq, Inhabited

namespace Span

/-- The span of nodes that were written nowhere. -/
def dummy : Span := ⟨0, 0⟩

def point (offset : Nat) : Span := ⟨offset, offset⟩

/-- Number of offsets covered; there is none for a span that ends before it starts. -/
def length? (span : Span) : Option Nat :=
  if span.start ≤ span.stop then some (span.stop - span.start) else none

def isEmpty (span : Span) : Bool := span.start == span.stop

def contains (span : Span) (offset : Nat) : Bool :=
  decide (span.start ≤ offset ∧ offset < span.stop)

/-- The smallest span covering both. -/
def merge (first second : Span) : Span :=
  ⟨min first.start second.start, max first.stop second.stop⟩

/-- Order by start, then by end. -/
def before (first second : Span) : Bool :=
  decide (first.start < second.start ∨ first.start = second.start ∧ first.stop < second.stop)

def render (span : Span) : String := s!"{span.start}..{span.stop}"

end Span
end ClassLang
