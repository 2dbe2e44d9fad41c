import Retrace.Session
import Retrace.Viewer.Pane

/-!
# The viewer

The viewer shows a session in five panes and a status bar, and moves it by keys. Drawing holds the
scroll offsets within what is shown and notes the error of a view that is not available.

Models `App` and `FocusedPane`.

* `App.press`: what a key does.
* `App.draw`: the screen, and the viewer after drawing it.
-/

namespace Retrace.Viewer

/-- The panes in the order in which the focus goes round. -/
inductive Pane where
  | source
  | evaluated
  | output
  | variableList
  | calls
  deriving DecidableEq, Repr

namespace Pane

/-- The pane that has the focus next. -/
def next : Pane → Pane
  | source => evaluated
  | evaluated => output
  | output => variableList
  | variableList => calls
  | calls => source

/-- The pane that had the focus before. -/
def previous : Pane → Pane
  | source => calls
  | evaluated => source
  | output => evaluated
  | variableList => output
  | calls => variableList

/-- The name of a pane. -/
def name : Pane → String
  | source => "Source"
  | evaluated => "Evaluated"
  | output => "Output"
  | variableList => "Variables"
  | calls => "Calls"

theorem previous_next (p : Pane) : p.next.previous = p := by
  cases p <;> rfl

end Pane

/-- A key; a space bar that is held down repeats. -/
inductive Key where
  | left
  | right
  | up
  | down
  | tab
  | backTab
  | enter
  | backspace
  | escape
  | space (repeated : Bool)
  | char (c : Char)
  deriving DecidableEq, Repr

/-- The key of a name; one character alone names its own key, and a held space bar has a name too.
-/
def Key.ofName? : String → Option Key
  | "left" => some .left
  | "right" => some .right
  | "up" => some .up
  | "down" => some .down
  | "tab" => some .tab
  | "backtab" => some .backTab
  | "enter" => some .enter
  | "backspace" => some .backspace
  | "esc" => some .escape
  | "space" | " " => some (.space false)
  | "space_held" => some (.space true)
  | name =>
    match name.toList with
    | [c] => some (.char c)
    | _ => none

/-- The state of the viewer. -/
structure App where
  session : Session
  mode : StepMode
  focus : Pane := .source
  sourceScroll : CodeScroll := {}
  evaluatedScroll : CodeScroll := {}
  variablesScroll : Nat := 0
  callsScroll : Nat := 0
  outputScroll : Nat := maxOffset
  quit : Bool := false
  message : String := "Ready!"
  queryError : Option String := none
  playing : Bool := false

namespace App

/-- The viewer of a session that has run. -/
def new (session : Session) : App := { session := session, mode := session.config.stepMode }

/-! ## Moves -/

/-- Steps forward up to `n` times; the number of steps made comes second. -/
def forwardTimes (mode : StepMode) (s : Session) : Nat → Session × Nat
  | 0 => (s, 0)
  | n + 1 =>
    match s.forwardBy mode with
    | (s, false) => (s, 0)
    | (s, true) =>
      let (s, made) := forwardTimes mode s n
      (s, made + 1)

/-- Steps forward until that is no longer possible. -/
def forwardToEnd (mode : StepMode) (s : Session) : Session :=
  match h : s.forwardTarget? mode with
  | none => s
  | some target =>
    have := Session.lt_of_forwardTarget? h
    forwardToEnd mode { s with cursor := target }
termination_by s.steps.length - s.cursor
decreasing_by omega

/-- Steps backward until that is no longer possible. -/
def backwardToStart (mode : StepMode) (s : Session) : Session :=
  match h : s.backwardTarget? mode with
  | none => s
  | some target =>
    have := (Session.lt_of_backwardTarget? h).1
    backwardToStart mode { s with cursor := target }
termination_by s.cursor
decreasing_by omega

/-- The viewer on a session that has moved: the output shows its end again. -/
def moved (a : App) (s : Session) (message : String) : App :=
  { a with session := s, message := message, outputScroll := maxOffset }

/-- A step forward. -/
def stepForward (a : App) : App :=
  match a.session.forwardBy a.mode with
  | (s, true) => a.moved s "Stepped forward"
  | (_, false) => { a with message := "Cannot step forward: end of trace" }

/-- A step backward. -/
def stepBackward (a : App) : App :=
  match a.session.backwardBy a.mode with
  | (s, true) => a.moved s "Stepped backward"
  | (_, false) => { a with message := "Cannot step backward: start of trace" }

/-- Several steps forward. -/
def stepTimes (a : App) (n : Nat) : App :=
  let (s, made) := forwardTimes a.mode a.session n
  a.moved s ("Stepped forward " ++ toString made ++ " step(s)")

/-! ## Keys -/

/-- Scrolls the focused pane up. -/
def scrollUp (a : App) : App :=
  match a.focus with
  | .source => { a with sourceScroll := a.sourceScroll.up }
  | .evaluated => { a with evaluatedScroll := a.evaluatedScroll.up }
  | .output => { a with outputScroll := a.outputScroll - 1 }
  | .variableList => { a with variablesScroll := a.variablesScroll - 1 }
  | .calls => { a with callsScroll := a.callsScroll - 1 }

/-- Scrolls the focused pane down. -/
def scrollDown (a : App) : App :=
  match a.focus with
  | .source => { a with sourceScroll := a.sourceScroll.down }
  | .evaluated => { a with evaluatedScroll := a.evaluatedScroll.down }
  | .output => { a with outputScroll := nextOffset a.outputScroll }
  | .variableList => { a with variablesScroll := nextOffset a.variablesScroll }
  | .calls => { a with callsScroll := nextOffset a.callsScroll }

/-- Starts or stops playing. -/
def togglePlaying (a : App) : App :=
  { a with playing := !a.playing, message := if a.playing then "Paused" else "Playing..." }

/-- The viewer with playing stopped. -/
def paused (a : App) : App := { a with playing := false }

/-- What a character key does. -/
def pressChar (a : App) (c : Char) : App :=
  if c = 'q' ∨ c = 'Q' then { a with quit := true }
  else if '1' ≤ c ∧ c ≤ '9' then a.paused.stepTimes (c.toNat - '0'.toNat)
  else if c = 'm' then { a with mode := a.mode.next, message := "stepping by " ++ a.mode.next.name }
  else a

/-- What a key does. -/
def press (a : App) : Key → App
  | .left => a.paused.stepBackward
  | .right => a.paused.stepForward
  | .up => a.scrollUp
  | .down => a.scrollDown
  | .tab => { a with focus := a.focus.next }
  | .backTab => { a with focus := a.focus.previous }
  | .enter => a.paused.moved (forwardToEnd a.mode a.session) "Jumped to end"
  | .backspace => a.paused.moved (backwardToStart a.mode a.session) "Jumped to start"
  | .escape => a
  | .space repeated => if repeated then a else a.togglePlaying
  | .char c => a.pressChar c

/-! ## Drawing -/

/-- A view, or the error that stands in its way; without one, the error noted so far stays. -/
def note {α : Type} (error : Option String) : Except String α → Option α × Option String
  | .ok value => (some value, error)
  | .error e => (none, some e)

/-- The mask that the evaluated pane shows; a statement over several lines has none and is no error.
-/
def maskView (s : Session) : Except String (Option String) :=
  match s.highlightMask with
  | .ok mask => .ok mask
  | .error (.multiLineHighlight _ _) => .ok none
  | .error e => .error e.message

/-- What the status bar tells, given the error of a view. -/
def status (a : App) (queryError : Option String) : Status where
  message := queryError.getD a.message
  cursor := a.session.cursor
  total := a.session.steps.length
  label := a.session.statementLabel?
  mode := a.mode
  isPlaying := a.playing
  isAtStart := a.session.isAtStartBy a.mode
  isAtEnd := a.session.isAtEnd
  isError := queryError.isSome

/-- The screen of a width and height, and the viewer after drawing it. -/
def draw (a : App) (width height : Nat) : App × Canvas :=
  let s := a.session
  let (evaluated, error) := note none (s.evaluatedCode.mapError SourceError.message)
  let (mask, error) := note error (maskView s)
  let (tree, error) := note error (s.callTree.mapError CallTreeError.message)
  let rows := height - 1
  let left := share width 60
  let sourceRows := share rows 40
  let evaluatedRows := share rows 75 - sourceRows
  let variableRows := share rows 55
  let frame (pane : Pane) (w h : Nat) : Frame := ⟨w, h, a.focus == pane⟩
  let (source, sourceScroll) :=
    sourcePane (frame .source left sourceRows) s.code (s.statement?.bind Step.range) a.sourceScroll
  let (evaluated, evaluatedScroll) :=
    evaluatedPane (frame .evaluated left evaluatedRows) (evaluated.getD s.code) (mask.getD none)
      s.config.highlightBlock a.evaluatedScroll
  let (output, outputScroll) :=
    outputPane (frame .output left (rows - sourceRows - evaluatedRows)) s.output a.outputScroll
  let (variablePane, variablesScroll) :=
    variablesPane (frame .variableList (width - left) variableRows) s.visibleVariables
      a.variablesScroll
  let (calls, callsScroll) :=
    callsPane (frame .calls (width - left) (rows - variableRows)) (tree.getD none) a.callsScroll
  let panes := beside (above (above source evaluated) output) (above variablePane calls)
  ({ a with
      sourceScroll := sourceScroll
      evaluatedScroll := evaluatedScroll
      outputScroll := outputScroll
      variablesScroll := variablesScroll
      callsScroll := callsScroll
      queryError := error },
    above panes [statusBar width (a.status error)])

end App

end Retrace.Viewer
