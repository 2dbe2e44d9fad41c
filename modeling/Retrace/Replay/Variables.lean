import Retrace.Distinct
import Retrace.Step
import Retrace.Value.Format

/-!
# Variables

The variables that a run has declared, with their latest values. Declarations and parameters
introduce variables by name; introducing a name again replaces the variable. Its value is that of
the last assignment to the name since then, or else the one it was introduced with. Variables come
in the order in which their names were first introduced.

Models `Variable`, `current_variables` and `scoped_variables`.
-/

namespace Retrace

/-- A variable at the end of a list of steps. -/
structure Variable where
  identifier : String
  type : String
  value : Option Value
  scope : Option SourceRange
  deriving DecidableEq, Repr

namespace Variable

/-- The name that a step introduces. -/
def introduced? (s : Step) : Option String := if s.introducesVariable then s.identifier else none

/-- The names introduced by steps, each once, in order of first introduction. -/
def introducedNames (steps : List Step) : List String := distinct (steps.filterMap introduced?)

/-- The last step that introduces a name, and the steps after it. -/
def lastIntroduction? (name : String) : List Step → Option (Step × List Step)
  | [] => none
  | s :: rest =>
    (lastIntroduction? name rest).or (if introduced? s = some name then some (s, rest) else none)

/-- The last step of a list that assigns to a name. -/
def lastAssignment? (name : String) : List Step → Option Step
  | [] => none
  | s :: rest =>
    (lastAssignment? name rest).or
      (if s.isAssignment ∧ s.identifier = some name then some s else none)

/-- The variable that a step introduced, after the steps that followed. -/
def ofIntroduction (name : String) (introduction : Step) (later : List Step) : Variable where
  identifier := name
  type := (introduction.value.map TypedValue.type).getD ""
  value :=
    (((lastAssignment? name later).bind Step.value).or introduction.value).map TypedValue.value
  scope := introduction.scope

/-- The variables at the end of a list of steps. -/
def current (steps : List Step) : List Variable :=
  (introducedNames steps).filterMap fun name =>
    (lastIntroduction? name steps).map fun (introduction, later) =>
      ofIntroduction name introduction later

/-- Whether a variable is visible in a range: its scope is unknown or holds the range. -/
def isVisibleIn (range : SourceRange) (v : Variable) : Bool :=
  match v.scope with
  | none => true
  | some scope => scope.contains range

/-- The variables visible where execution is; all of them when that is unknown. -/
def visible (steps : List Step) (active : Option SourceRange) : List Variable :=
  match active with
  | none => current steps
  | some range => (current steps).filter (isVisibleIn range)

/-- The value of a variable as it is shown. -/
def shown? (v : Variable) : Option String := v.value.map (Value.format v.type)

end Variable

end Retrace
