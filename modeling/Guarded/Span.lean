/-!
Regions of source text. Offsets count characters from zero, and lines count from one; the region of
nothing is all zeros.
-/

namespace Guarded

structure Span where
  start : Nat
  stop : Nat
  line : Nat
deriving DecidableEq, Repr, Inhabited

namespace Span

def nowhere : Span :=
  ⟨0, 0, 0⟩

/-- The least region that holds both; its line is that of the one that starts first. -/
def merge (a b : Span) : Span where
  start := min a.start b.start
  stop := max a.stop b.stop
  line := if a.start ≤ b.start then a.line else b.line

def length (s : Span) : Nat :=
  s.stop - s.start

def isEmpty (s : Span) : Bool :=
  s.start == s.stop

end Span

end Guarded
