/-!
Byte ranges of a source: `start` is the first byte, `stop` the first byte after it.
-/

namespace LetLang

structure Span where
  start : Nat := 0
  stop : Nat := 0
  deriving DecidableEq, Inhabited

namespace Span

/-- The empty range at the start of every source. -/
def null : Span := {}

def size (s : Span) : Nat := s.stop - s.start

def isEmpty (s : Span) : Bool := s.start == s.stop

theorem isEmpty_iff (s : Span) : s.isEmpty = true ↔ s.start = s.stop := by simp [isEmpty]

end Span

end LetLang
