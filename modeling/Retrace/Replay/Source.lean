import Retrace.Replay.Window
import Retrace.Segment.Image
import Retrace.Segment.Splice
import Retrace.Source.LineIndex
import Retrace.Value.Format

/-!
# Source text at a point of a run

The values of the expressions that the current statement has evaluated take the place of those
expressions in the source. The mask of the statement marks where it then stands.

Models `substitutions`, `evaluated_code` and `highlighted_code`.

* `substitutions`: what is replaced, as segments by byte offsets.
* `evaluatedCode`: the source with everything replaced.
* `highlightMask`: one line per line of that text, empty but for the statement's, which is blank up
  to the statement and then holds a block for each of its characters.
-/

namespace Retrace

/-- The range and text of an evaluation that has both. -/
def evaluation? (s : Step) : Option (Segment Location) :=
  if s.isExpression then
    match s.range, s.value with
    | some range, some v => some ⟨range, v.value.format v.type⟩
    | _, _ => none
  else none

/-- A segment by byte offsets, when its range lies in the text. -/
def locateSegment (index : LineIndex) (s : Segment Location) : Except SourceError (Segment Nat) :=
  match index.offsets? s.span with
  | some span => .ok ⟨span, s.value⟩
  | none => .error (.rangeOutOfBounds s.span)

/-- The replacements for the current statement's evaluations, ordered by start. -/
def substitutions (code : String) (steps : List Step) : Except SourceError (List (Segment Nat)) :=
  (Segment.nonOverlapping ((statementWindow steps).filterMap evaluation?)).mapM
    (locateSegment (LineIndex.ofText code.toList))

/-- The source with the current statement's values in place. -/
def evaluatedCode (code : String) (steps : List Step) : Except SourceError String := do
  Segment.splice code (← substitutions code steps)

/-- The lines of a mask: `line`, counted from one, is blank for `indent` characters and marked for
`width`. -/
def maskLines (count line indent width : Nat) (block : Char) : List (List Char) :=
  (List.range count).map fun i =>
    if i + 1 = line then List.replicate indent ' ' ++ List.replicate width block else []

/-- The number of characters between two byte offsets, or of bytes when an offset is inside a
character. -/
def widthBetween (text : List Char) (start stop : Nat) : Nat :=
  ((Text.slice? start stop text).map List.length).getD (stop - start)

/-- The mask of a span in a text, which has to lie on one line. -/
def maskSpan (text : List Char) (span : Span Nat) (block : Char) : Except SourceError (List Char) :=
  let index := LineIndex.ofText text
  let start := index.location span.start
  let stop := index.location span.stop
  if start.line = stop.line then
    let indent := widthBetween text (span.start - (start.column - 1)) span.start
    let width := widthBetween text span.start span.stop
    .ok (Text.joinLines (maskLines index.lineCount start.line indent width block))
  else .error (.multiLineHighlight start.line stop.line)

/-- The mask of a statement with a range. -/
def maskStatement (code : String) (steps : List Step) (range : SourceRange) (block : Char) :
    Except SourceError String := do
  if range.isSingleLine then
    match (LineIndex.ofText code.toList).offsets? range with
    | none => .error (.rangeOutOfBounds range)
    | some statement =>
      let segments ← substitutions code steps
      let evaluated ← Segment.splice code segments
      (maskSpan evaluated.toList (Segment.image statement segments) block).map String.ofList
  else .error (.multiLineHighlight range.start.line range.stop.line)

/-- The mask of the current statement; nothing when there is none with a range. -/
def highlightMask (code : String) (steps : List Step) (block : Char) :
    Except SourceError (Option String) :=
  match (currentStatement? steps).bind Step.range with
  | none => .ok none
  | some range => (maskStatement code steps range block).map some

end Retrace
