/-! # Spans

A span is a stretch of source bytes, given by its first byte and its length. Offsets are 64-bit and
lengths are 32-bit quantities: a longer stretch is recorded with the greatest length that fits.
-/

namespace Mila

/-- A stretch of bytes: `len` bytes from offset `lo` on. -/
structure Span where
  lo : Nat
  len : Nat
  deriving DecidableEq, Repr

namespace Span

/-- The greatest length a span records. -/
def maxLength : Nat := 0xFFFFFFFF

/-- The greatest offset. -/
def maxOffset : Nat := 0xFFFFFFFFFFFFFFFF

/-- The span of `len` bytes from `lo` on. -/
def ofLength (lo len : Nat) : Span := ⟨lo, min len maxLength⟩

/-- The span from `lo` up to, and without, `hi`. There is none if the bounds are in the wrong order, or if
the upper one is no offset. -/
def ofBounds? (lo hi : Nat) : Option Span :=
  if lo ≤ hi ∧ hi ≤ maxOffset then some (ofLength lo (hi - lo)) else none

/-- The offset just after the last byte. -/
def hi (s : Span) : Nat := s.lo + s.len

/-- Whether a span ends at an offset. -/
def isPlaced (s : Span) : Bool := s.hi ≤ maxOffset

/-- The form `lo..hi` in which spans appear in messages. -/
def text (s : Span) : String := toString s.lo ++ ".." ++ toString s.hi

/-- The long form, which also shows the recorded length. -/
def dump (s : Span) : String := "Span(" ++ s.text ++ ", len: " ++ toString s.len ++ ")"

/-- A message about the stretch, headed by its place. -/
def note (s : Span) (message : String) : String := s.text ++ ": " ++ message

end Span

end Mila
