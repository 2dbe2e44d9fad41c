import Retrace.Source.Location
import Retrace.Value

/-!
# Steps

A step is one event of a recorded run. Its action says what happened; the other fields are filled as
far as the action calls for them.

Models `Action`, `Step`, `StepMode` and the predicates from `is_statement_step` to `is_break_step`.
-/

namespace Retrace

/-- What happened in a step. -/
inductive Action where
  | statement
  | eval
  | declaration
  | assignment
  | parameter
  | invocation
  | ret
  | stdout
  | stderr
  | expression
  deriving DecidableEq, Repr

namespace Action

/-- The name of an action in traces and metadata. -/
def name : Action → String
  | .statement => "stat"
  | .eval => "eval"
  | .declaration => "decl"
  | .assignment => "assign"
  | .parameter => "par"
  | .invocation => "invocation"
  | .ret => "return"
  | .stdout => "stdout"
  | .stderr => "stderr"
  | .expression => "expression"

/-- The action of a name; parameters have a second, longer one. -/
def ofName? : String → Option Action
  | "stat" => some .statement
  | "eval" => some .eval
  | "decl" => some .declaration
  | "assign" => some .assignment
  | "par" => some .parameter
  | "parameter" => some .parameter
  | "invocation" => some .invocation
  | "return" => some .ret
  | "stdout" => some .stdout
  | "stderr" => some .stderr
  | "expression" => some .expression
  | _ => none

/-- Whether a step with this action must have a value. -/
def carriesValue : Action → Bool
  | .eval | .expression | .declaration | .assignment | .parameter => true
  | _ => false

/-- Every action's name reads back as the action. -/
theorem ofName?_name (a : Action) : ofName? a.name = some a := by
  cases a <;> rfl

end Action

/-- One event of a recorded run. -/
structure Step where
  action : Action
  node : Option Nat := none
  range : Option SourceRange := none
  identifier : Option String := none
  value : Option TypedValue := none
  scope : Option SourceRange := none
  label : Option String := none
  text : Option String := none
  deriving DecidableEq, Repr

namespace Step

def isStatement (s : Step) : Bool := s.action == .statement

/-- Evaluations, under either of their two actions. -/
def isExpression (s : Step) : Bool := s.action == .eval || s.action == .expression

def isInvocation (s : Step) : Bool := s.action == .invocation

def isReturn (s : Step) : Bool := s.action == .ret

def isDeclaration (s : Step) : Bool := s.action == .declaration

def isAssignment (s : Step) : Bool := s.action == .assignment

def isParameter (s : Step) : Bool := s.action == .parameter

/-- Steps that write to either output stream. -/
def isOutput (s : Step) : Bool := s.action == .stdout || s.action == .stderr

/-- Steps where a replay stops by default. -/
def isBreak (s : Step) : Bool := s.isExpression || s.isStatement

/-- Steps that bring a variable into being. -/
def introducesVariable (s : Step) : Bool := s.isDeclaration || s.isParameter

end Step

/-- The granularity of stepping. -/
inductive StepMode where
  | break
  | statement
  | expression
  deriving DecidableEq, Repr

namespace StepMode

/-- The name of a mode in configurations and on the command line. -/
def name : StepMode → String
  | .break => "break"
  | .statement => "statement"
  | .expression => "expression"

/-- The mode of a name. -/
def ofName? : String → Option StepMode
  | "break" => some .break
  | "statement" => some .statement
  | "expression" => some .expression
  | _ => none

/-- Whether stepping in this mode stops at a step. -/
def stopsAt : StepMode → Step → Bool
  | .break, s => s.isBreak
  | .statement, s => s.isStatement
  | .expression, s => s.isExpression

/-- The mode that follows in the cycle of modes. -/
def next : StepMode → StepMode
  | .break => .statement
  | .statement => .expression
  | .expression => .break

/-- The modes in the order of that cycle. -/
def all : List StepMode := [.break, .statement, .expression]

end StepMode

end Retrace
