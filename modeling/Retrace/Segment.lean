import Retrace.Source.Location

/-!
# Segments

A segment pairs a span with the text that replaces it. Segments are recorded in order of evaluation;
a later one displaces every earlier one that it conflicts with, so an enclosing expression takes the
place of its parts once it is evaluated, and a part that is evaluated again takes the place of the
whole.

Models `Segment`, `conflicts` and `non_overlapping`.

* `accept`: one more segment, which evicts those in conflict with it.
* `nonOverlapping`: the segments left after all were accepted, ordered by start.
-/

namespace Retrace

/-- A span and the text that replaces it. -/
structure Segment (α : Type) where
  span : Span α
  value : String
  deriving DecidableEq, Repr

namespace Segment

variable {α : Type} [LE α] [LT α] [DecidableLE α] [DecidableLT α]

/-- The accepted segments after one more, which evicts those in conflict with it. -/
def accept (accepted : List (Segment α)) (s : Segment α) : List (Segment α) :=
  accepted.filter (fun kept => !kept.span.conflicts s.span) ++ [s]

/-- Whether a segment starts no later than another. -/
def startsBy (s t : Segment α) : Bool := decide (s.span.start ≤ t.span.start)

/-- The segments that no later one displaced, ordered by start. -/
def nonOverlapping (segments : List (Segment α)) : List (Segment α) :=
  (segments.foldl accept []).mergeSort startsBy

end Segment

end Retrace
