/-! Half-open ranges of byte offsets in the text of a document. -/

namespace NameBinding

/-- The offsets from `start` up to and without `stop`. -/
structure Span where
  start : Nat
  stop : Nat
  deriving DecidableEq, Repr, Inhabited

namespace Span

/-- The number that stands for a missing offset. -/
def noOffset : Nat := 4294967295

/-- The span of a node without a usable position. -/
def invalid : Span := ⟨noOffset, noOffset⟩

/-- A span is valid when its start is an offset and it does not run backwards. -/
def isValid (s : Span) : Bool := s.start != noOffset && decide (s.start ≤ s.stop)

/-- Spans that are not valid have length nought. -/
def length (s : Span) : Nat := if s.isValid then s.stop - s.start else 0

def isEmpty (s : Span) : Bool := s.length == 0

def contains (s : Span) (offset : Nat) : Bool :=
  s.isValid && decide (s.start ≤ offset) && decide (offset < s.stop)

/-- `t` lies within `s`, and both are valid. -/
def encloses (s t : Span) : Bool :=
  s.isValid && t.isValid && decide (s.start ≤ t.start) && decide (t.stop ≤ s.stop)

/-- Spans are ordered by their start, then by their stop. -/
instance : Ord Span := ⟨fun s t => (compare s.start t.start).then (compare s.stop t.stop)⟩

theorem isValid_iff {s : Span} : s.isValid = true ↔ s.start ≠ noOffset ∧ s.start ≤ s.stop := by
  simp [isValid]

theorem contains_iff {s : Span} {offset : Nat} :
    s.contains offset = true ↔ s.isValid = true ∧ s.start ≤ offset ∧ offset < s.stop := by
  simp [contains, and_assoc]

theorem encloses_iff {s t : Span} : s.encloses t = true ↔
    s.isValid = true ∧ t.isValid = true ∧ s.start ≤ t.start ∧ t.stop ≤ s.stop := by
  simp [encloses, and_assoc]

end Span

end NameBinding
