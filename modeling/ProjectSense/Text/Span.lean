/-!
# Spans of a text

Positions count UTF-8 bytes.  A span may be empty, and an offset on either end of it touches it:
a cursor sits between characters, so one right after a name still belongs to the name.

* `Span.touches_iff`: touching is lying between the ends, both included.
-/

namespace ProjectSense

/-- the bytes from `start` up to `stop` -/
structure Span where
  start : Nat
  stop : Nat
deriving DecidableEq, Repr, Inhabited

namespace Span

/-- the empty span at `pos` -/
def empty (pos : Nat) : Span := ⟨pos, pos⟩

/-- `offset` lies inside the span or on one of its ends -/
def touches (s : Span) (offset : Nat) : Bool := s.start ≤ offset && offset ≤ s.stop

/-- the least span that holds the span and the offset -/
def coverOffset (s : Span) (offset : Nat) : Span := ⟨min s.start offset, max s.stop offset⟩

/-- the least span that holds both spans -/
def cover (s t : Span) : Span := ⟨min s.start t.start, max s.stop t.stop⟩

@[simp] theorem touches_iff {s : Span} {offset : Nat} :
    s.touches offset = true ↔ s.start ≤ offset ∧ offset ≤ s.stop := by
  simp [touches]

end Span
end ProjectSense
