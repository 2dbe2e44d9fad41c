import Retrace.Error
import Retrace.Segment
import Retrace.Text.Bytes

/-!
# Splicing

Replacing spans of a text, given by byte offsets. The segments have to be in order, apart from each
other, inside the text and on character boundaries; the first that is not is the error.

Models `splice`.

* `spliceFrom`: the work on the rest of a text behind a position.
* `splice`: the text with all segments replaced.
-/

namespace Retrace.Segment

/-- The text `rest`, which starts at byte `position` of a whole, with segments of the whole
replaced. -/
def spliceFrom (position : Nat) (rest : List Char) :
    List (Segment Nat) → Except SourceError (List Char)
  | [] => .ok rest
  | ⟨⟨start, stop⟩, value⟩ :: segments =>
    if position ≤ start ∧ start ≤ stop then
      match Text.splitAt? (start - position) rest with
      | none => .error (.segmentOutOfBounds start stop)
      | some (gap, tail) =>
        match Text.splitAt? (stop - start) tail with
        | none => .error (.segmentOutOfBounds start stop)
        | some (_, tail) =>
          (spliceFrom stop tail segments).map fun out => gap ++ (value.toList ++ out)
    else .error (.segmentOutOfBounds start stop)

/-- The text with every segment's span replaced by its value. -/
def splice (text : String) (segments : List (Segment Nat)) : Except SourceError String :=
  (spliceFrom 0 text.toList segments).map String.ofList

end Retrace.Segment
