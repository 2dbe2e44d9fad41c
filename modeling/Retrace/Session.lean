import Retrace.Config
import Retrace.Replay.CallTree
import Retrace.Replay.Search
import Retrace.Replay.Source
import Retrace.Replay.Variables
import Retrace.Trace.File

/-!
# Sessions

A session owns a replay: where its trace comes from, its settings, and a cursor into the steps.
Running it loads the trace, once. After that only the cursor moves; every view is worked out anew
from the steps up to the cursor. The cursor stops on steps of the stepping mode, and in the end on
the last step, so that everything the program wrote can be shown.

Models `Producer`, `TraceFile`, `Recorded` and `Simulation`.

* `Producer.produce`: the trace of a producer, and what is left of the producer.
* `Session.run`, `Session.forwardBy`, `Session.backwardBy`, `Session.rewind`, `Session.jumpToEnd`:
  the moves.
* `Session.lt_of_forwardTarget?`, `Session.lt_of_backwardTarget?`: each move goes its way.
-/

namespace Retrace

/-- Where a trace comes from: the answers to successive requests for one, and the number of requests
made. -/
structure Producer where
  answer : Nat → Except TraceError Trace
  requests : Nat := 0

namespace Producer

/-- A trace held in memory, if it is still there; it is given once. -/
def recorded (trace : Option Trace) : Producer where
  answer
    | 0 => trace.elim (.error .alreadyConsumed) .ok
    | _ + 1 => .error .alreadyConsumed

/-- The trace in a file's contents, which must not have more steps than the limit. -/
def loadFile (contents : Option String) (limit : Nat) : Except TraceError Trace :=
  match contents with
  | none => .error .unreadable
  | some text => do
    let trace ← Trace.ofText text
    if limit < trace.steps.length then .error (.stepLimitExceeded limit) else .ok trace

/-- A file with the given contents, if it can be read, whose trace must not have more steps than the
limit. -/
def file (contents : Option String) (limit : Nat) : Producer where
  answer _ := loadFile contents limit

/-- What a producer gives when asked, and the producer afterwards. -/
def produce (p : Producer) : Except TraceError Trace × Producer :=
  (p.answer p.requests, { p with requests := p.requests + 1 })

end Producer

/-- The state of a replay. -/
structure Session where
  producer : Producer
  config : Config
  code : String
  tree : SyntaxTree
  steps : List Step
  cursor : Nat
  started : Bool

/-- Why a view of a session is not available. -/
inductive ViewError where
  | source (e : SourceError)
  | calls (e : CallTreeError)
  deriving DecidableEq, Repr

/-- The wording of a view error. -/
def ViewError.message : ViewError → String
  | .source e => e.message
  | .calls e => e.message

namespace Session

/-- A session that has not run. -/
def new (producer : Producer) (config : Config) : Session :=
  ⟨producer, config, "", ⟨[]⟩, [], 0, false⟩

/-- Where the cursor rests before any move: on the first step of the mode, or on the first of all.
-/
def startOf (mode : StepMode) (steps : List Step) : Nat := (Search.first? mode.stopsAt steps).getD 0

/-- The session with a trace loaded. -/
def load (s : Session) (trace : Trace) : Session :=
  { s with
    code := trace.code
    tree := trace.tree
    steps := trace.steps
    cursor := startOf s.config.stepMode trace.steps }

/-- Loads the trace, unless that was tried before; too many steps are refused. -/
def run (s : Session) : Session × Except TraceError Unit :=
  if s.started then (s, .ok ())
  else
    let (outcome, producer) := s.producer.produce
    let s := { s with producer := producer, started := true }
    match outcome with
    | .error e => (s, .error e)
    | .ok trace =>
      if s.config.stepLimit < trace.steps.length then
        (s, .error (.stepLimitExceeded s.config.stepLimit))
      else (s.load trace, .ok ())

/-! ## Moves -/

/-- The last position, when there are steps. -/
def lastIndex? (s : Session) : Option Nat :=
  if s.steps.isEmpty then none else some (s.steps.length - 1)

/-- Where a step forward leads: to the next step of the mode, or else to the last step of all. -/
def forwardTarget? (s : Session) (mode : StepMode) : Option Nat :=
  (Search.next? mode.stopsAt s.steps s.cursor).or (s.lastIndex?.filter fun last => s.cursor < last)

/-- Where a step backward leads: to the previous step of the mode. -/
def backwardTarget? (s : Session) (mode : StepMode) : Option Nat :=
  Search.previous? mode.stopsAt s.steps s.cursor

/-- The session with its cursor moved, and whether there was a place to move to. -/
def moveTo (s : Session) : Option Nat → Session × Bool
  | some target => ({ s with cursor := target }, true)
  | none => (s, false)

/-- A step forward in a mode. -/
def forwardBy (s : Session) (mode : StepMode) : Session × Bool := s.moveTo (s.forwardTarget? mode)

/-- A step backward in a mode. -/
def backwardBy (s : Session) (mode : StepMode) : Session × Bool := s.moveTo (s.backwardTarget? mode)

/-- A step forward in the configured mode. -/
def forward (s : Session) : Session × Bool := s.forwardBy s.config.stepMode

/-- A step backward in the configured mode. -/
def backward (s : Session) : Session × Bool := s.backwardBy s.config.stepMode

/-- Back to where the cursor rested at first. -/
def rewind (s : Session) : Session := { s with cursor := startOf s.config.stepMode s.steps }

/-- On to the last step. -/
def jumpToEnd (s : Session) : Session := { s with cursor := s.lastIndex?.getD 0 }

theorem lt_of_forwardTarget? {s : Session} {mode : StepMode} {target : Nat}
    (h : s.forwardTarget? mode = some target) : s.cursor < target ∧ target < s.steps.length := by
  unfold forwardTarget? at h
  rcases Option.or_eq_some_iff.mp h with h | ⟨-, h⟩
  · exact Search.lt_of_next? h
  · obtain ⟨hl, hc⟩ := Option.filter_eq_some_iff.mp h
    unfold lastIndex? at hl
    by_cases he : s.steps.isEmpty = true
    · rw [if_pos he] at hl
      exact absurd hl (by simp)
    · rw [if_neg he] at hl
      have ht : s.steps.length - 1 = target := Option.some.inj hl
      have hc := of_decide_eq_true hc
      omega

theorem lt_of_backwardTarget? {s : Session} {mode : StepMode} {target : Nat}
    (h : s.backwardTarget? mode = some target) : target < s.cursor ∧ target < s.steps.length :=
  Search.lt_of_previous? h

/-! ## Views -/

/-- The steps up to the cursor, its own included. -/
def visibleSteps (s : Session) : List Step := s.steps.take (s.cursor + 1)

/-- The source with the current statement's values in place. -/
def evaluatedCode (s : Session) : Except SourceError String :=
  Retrace.evaluatedCode s.code s.visibleSteps

/-- The mask of the current statement. -/
def highlightMask (s : Session) : Except SourceError (Option String) :=
  Retrace.highlightMask s.code s.visibleSteps s.config.highlightBlock

/-- What steps have written, to either stream. -/
def written (steps : List Step) : String :=
  String.join ((steps.filter Step.isOutput).filterMap Step.text)

/-- The banner and what the program has written. -/
def output (s : Session) : String := s.config.outputBanner ++ written s.visibleSteps

/-- The variables that are shown. -/
def visibleVariables (s : Session) : List Variable :=
  if s.config.scopedVariables then Variable.visible s.visibleSteps (activeRange? s.visibleSteps)
  else Variable.current s.visibleSteps

/-- The calls up to the cursor. -/
def callTree (s : Session) : Except CallTreeError (Option Call) := CallTree.ofSteps s.visibleSteps

/-- The statement that is being executed. -/
def statement? (s : Session) : Option Step := currentStatement? s.visibleSteps

/-- The label of that statement. -/
def statementLabel? (s : Session) : Option String := s.statement?.bind Step.label

/-- The step under the cursor. -/
def step? (s : Session) : Option Step := s.steps[s.cursor]?

/-- Whether no step lies behind the cursor. -/
def isAtEnd (s : Session) : Bool :=
  match s.lastIndex? with
  | none => true
  | some last => last ≤ s.cursor

/-- Whether no step of a mode lies before the cursor. -/
def isAtStartBy (s : Session) (mode : StepMode) : Bool := (s.backwardTarget? mode).isNone

end Session

end Retrace
