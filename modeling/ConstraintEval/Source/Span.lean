/-!
# Places in a source text

A span is a half-open range of byte offsets. What no source text wrote, such as the standard
library, carries the span `0..0`.
-/

namespace ConstraintEval

/-- The bytes from offset `start` up to, and without, offset `stop`. -/
structure Span where
  start : Nat
  stop : Nat
  deriving DecidableEq, Inhabited

namespace Span

/-- The span of what has no place in a source text. -/
def nowhere : Span := ⟨0, 0⟩

/-- The number of bytes, 0 where the ends are in the wrong order. -/
def length (s : Span) : Nat := s.stop - s.start

/-- Whether the span holds no byte. -/
def isEmpty (s : Span) : Bool := s.stop ≤ s.start

/-- Whether this is the span of what has no place. -/
def isNowhere (s : Span) : Bool := s == nowhere

/-- The least span that covers both. -/
def cover (s t : Span) : Span := ⟨min s.start t.start, max s.stop t.stop⟩

instance : ToString Span := ⟨fun s ↦ s!"{s.start}..{s.stop}"⟩

/-- A span is empty exactly when its length is 0. -/
theorem isEmpty_iff {s : Span} : s.isEmpty = true ↔ s.length = 0 := by
  simp only [isEmpty, length, decide_eq_true_eq]
  omega

end Span

end ConstraintEval
