/-!
# Distinct members

A list freed from repetitions: every member stays where it first appears.
-/

namespace Retrace

/-- The members seen after one more, latest first. -/
def noteMember {α : Type} [DecidableEq α] (seen : List α) (x : α) : List α :=
  if x ∈ seen then seen else x :: seen

/-- The members of a list, each once, in order of first appearance. -/
def distinct {α : Type} [DecidableEq α] (xs : List α) : List α := (xs.foldl noteMember []).reverse

end Retrace
