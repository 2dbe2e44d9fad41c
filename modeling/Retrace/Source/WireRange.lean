import Retrace.Source.LineIndex

/-!
# Ranges as producers write them

A trace may give a range in three shapes. The two that speak of lines and columns have an inclusive
end column; the one that speaks of byte offsets is half-open. All three resolve to one
`SourceRange`, when it runs forwards and a byte span is found for it.

Models `WireRange` and its `resolve`.
-/

namespace Retrace

/-- A range in one of the shapes of a trace file. -/
inductive WireRange where
  | location (startLine startColumn endLine endColumn : Nat)
  | lines (startLine startColumn endLine endColumn : Nat)
  | offsets (start stop : Nat)
  deriving DecidableEq, Repr

namespace WireRange

/-- The range between locations that a wire range names, before it is checked against the text. -/
def toRange? (index : LineIndex) : WireRange → Option SourceRange
  | .location sl sc el ec | .lines sl sc el ec => some (SourceRange.ofInclusive sl sc el ec)
  | .offsets start stop =>
    if stop < start ∨ index.size < stop then none
    else some ⟨index.location start, index.location stop⟩

/-- Whether machine words hold all sums that resolving takes: the column behind an inclusive end, and
those for the offsets of the ends. -/
def fits (index : LineIndex) (wire : WireRange) : Bool :=
  (match wire with
    | .location _ _ _ ec | .lines _ _ _ ec => decide (ec + 1 < UInt64.size)
    | .offsets _ _ => true) &&
  (wire.toRange? index).all index.fitsRange

/-- The range that a wire range stands for, when it has a byte span in the text. -/
def resolve? (index : LineIndex) (wire : WireRange) : Option SourceRange := do
  let range ← wire.toRange? index
  if range.stop < range.start then none
  let _ ← index.offsets? range
  some range

/-- The wire range as error messages quote it. -/
def quoted : WireRange → String
  | .location sl sc el ec =>
    s!"Location([{sl}, {sc}, {el}, {ec}])"
  | .lines sl sc el ec =>
    "Lines \x7b start_line: " ++ toString sl ++ ", start_column: " ++ toString sc ++
      ", end_line: " ++ toString el ++ ", end_column: " ++ toString ec ++ " \x7d"
  | .offsets start stop =>
    "Offsets \x7b start_index: " ++ toString start ++ ", end_index: " ++ toString stop ++ " \x7d"

end WireRange

end Retrace
