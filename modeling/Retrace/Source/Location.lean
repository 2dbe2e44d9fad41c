/-!
# Locations and spans

A location is a line and a column, both counted from one; a column counts bytes within its line.
Spans are half-open and may have any ordered points for ends: byte offsets or locations.

Lines, columns and byte offsets are machine words. Sums of them are taken by `wordSum`, which goes on
from zero where a word cannot hold the sum.

Models `SourceLocation`, `Span`, `SourceRange` and `from_inclusive`.
-/

namespace Retrace

/-- The sum of two machine words, which goes on from zero behind the greatest word. -/
def wordSum (a b : Nat) : Nat := (a + b) % UInt64.size

theorem wordSum_of_lt {a b : Nat} (h : a + b < UInt64.size) : wordSum a b = a + b :=
  Nat.mod_eq_of_lt h

/-- A position in source text by line and column, both from one, ordered by line first. -/
structure Location where
  line : Nat
  column : Nat
  deriving DecidableEq, Repr

namespace Location

instance : LT Location where
  lt a b := a.line < b.line ∨ (a.line = b.line ∧ a.column < b.column)

instance : LE Location where
  le a b := a.line < b.line ∨ (a.line = b.line ∧ a.column ≤ b.column)

instance (a b : Location) : Decidable (a < b) :=
  inferInstanceAs (Decidable (a.line < b.line ∨ (a.line = b.line ∧ a.column < b.column)))

instance (a b : Location) : Decidable (a ≤ b) :=
  inferInstanceAs (Decidable (a.line < b.line ∨ (a.line = b.line ∧ a.column ≤ b.column)))

/-- A location as `line:column`. -/
def text (l : Location) : String := toString l.line ++ ":" ++ toString l.column

theorem lt_def {a b : Location} :
    a < b ↔ a.line < b.line ∨ (a.line = b.line ∧ a.column < b.column) := Iff.rfl

theorem le_def {a b : Location} :
    a ≤ b ↔ a.line < b.line ∨ (a.line = b.line ∧ a.column ≤ b.column) := Iff.rfl

end Location

/-- A half-open interval between two points. -/
structure Span (α : Type) where
  start : α
  stop : α
  deriving DecidableEq, Repr

namespace Span

variable {α : Type}

/-- An empty span marks a place of insertion. -/
def isEmpty [DecidableEq α] (s : Span α) : Bool := s.start == s.stop

variable [LE α] [LT α] [DecidableLE α] [DecidableLT α]

/-- Whether `inner` lies within the span, ends included. -/
def contains (s inner : Span α) : Bool :=
  decide (s.start ≤ inner.start) && decide (inner.stop ≤ s.stop)

/-- Whether a point lies in the span, both ends included. -/
def containsPoint (s : Span α) (point : α) : Bool :=
  decide (s.start ≤ point) && decide (point ≤ s.stop)

/-- Whether two spans share an interior point. -/
def overlaps (s t : Span α) : Bool := decide (s.start < t.stop) && decide (t.start < s.stop)

/-- Whether two spans cannot both be replaced: one holds the other, or they overlap. -/
def conflicts (s t : Span α) : Bool := s.contains t || t.contains s || s.overlaps t

/-- Spans are ordered by their starts, then by their ends. -/
def precedes (s t : Span α) : Bool :=
  decide (s.start < t.start) || (!decide (t.start < s.start) && decide (s.stop < t.stop))

end Span

/-- A span of source text between two locations. -/
abbrev SourceRange := Span Location

namespace SourceRange

/-- The range whose last column is given inclusively. -/
def ofInclusive (startLine startColumn endLine endColumn : Nat) : SourceRange :=
  ⟨⟨startLine, startColumn⟩, ⟨endLine, wordSum endColumn 1⟩⟩

/-- Whether a range starts and ends on one line. -/
def isSingleLine (r : SourceRange) : Bool := r.start.line == r.stop.line

/-- A range as `start-stop`. -/
def text (r : SourceRange) : String := r.start.text ++ "-" ++ r.stop.text

end SourceRange

end Retrace
