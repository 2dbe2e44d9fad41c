import Retrace.Distinct
import Retrace.Step

/-!
# Statement labels

A statement is known by its line and its rank among the statements that start on that line, as
`l<line>:<rank>`. The rank counts distinct ranges by their order, so every run of a statement has
the same label. Labels that a producer set itself are kept.

Models `assign_statement_refs`.
-/

namespace Retrace.Label

/-- The range of a statement step. -/
def statementRange? (s : Step) : Option SourceRange := if s.isStatement then s.range else none

/-- The distinct ranges of all statement steps. -/
def statementRanges (steps : List Step) : List SourceRange :=
  distinct (steps.filterMap statementRange?)

/-- How many ranges that start on the same line come before a range. -/
def rank (ranges : List SourceRange) (r : SourceRange) : Nat :=
  (ranges.filter fun q => q.start.line == r.start.line && q.precedes r).length

/-- The label of a range among the statement ranges. -/
def ofRange (ranges : List SourceRange) (r : SourceRange) : String :=
  "l" ++ toString r.start.line ++ ":" ++ toString (rank ranges r + 1)

/-- A step with the label of its range, unless it has one or is no statement. -/
def assignStep (ranges : List SourceRange) (s : Step) : Step :=
  match s.label, statementRange? s with
  | none, some r => { s with label := some (ofRange ranges r) }
  | _, _ => s

/-- The steps with all statement labels assigned. -/
def assign (steps : List Step) : List Step := steps.map (assignStep (statementRanges steps))

end Retrace.Label
