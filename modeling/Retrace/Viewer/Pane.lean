import Retrace.Replay.CallTree
import Retrace.Replay.Variables
import Retrace.Text.Lines
import Retrace.Viewer.Canvas
import Retrace.Viewer.CodeStyle
import Retrace.Viewer.Scroll

/-!
# Panes

Each pane draws one view of a replay into a canvas of a given size. Panes that scroll also give
their scroll state back, since drawing holds it within the text.

Models `render_source_pane`, `render_evaluated_pane`, `render_terminal_pane`,
`render_variables_pane`, `render_calls_pane` with `call_lines`, and `render_status_bar`.

* `sourcePane`, `evaluatedPane`: code with the current statement shaded.
* `outputPane`, `variablesPane`, `callsPane`: lists.
* `statusBar`: the bottom row.
-/

namespace Retrace.Viewer

/-- Where and how a pane is drawn. -/
structure Frame where
  width : Nat
  height : Nat
  focused : Bool
  deriving DecidableEq, Repr

/-- The box of a pane. -/
def Frame.box (f : Frame) (title : String) : Box :=
  ⟨title, f.focused, f.width, f.height, Style.plain⟩

/-! ## Code -/

/-- The lines of a code pane on its page: each is shaded by its number and text, then numbered. -/
def codeLines (shade : Nat → List Char → StyledText → StyledText) (current : Option Nat)
    (offset height : Nat) (lines : List (List Char)) : List (List Run) :=
  ((lines.zipIdx 1).drop offset |>.take height).map fun (line, n) =>
    numberedLine n (current == some n) (shade n line (styleLine line))

/-- A code pane with its lines. -/
def drawCode (b : Box) (lines : List (List Run)) : Canvas :=
  b.draw (lines.map (row b.innerWidth Style.plain))

/-- The part of line `n` that a range covers, from the first character to the one past the last. -/
def coveredChars (range : SourceRange) (n : Nat) (line : List Char) : Option (Nat × Nat) :=
  if range.start.line ≤ n ∧ n ≤ range.stop.line then
    let start := if n = range.start.line then range.start.column - 1 else 0
    let stop := if n = range.stop.line then range.stop.column - 1 else Text.byteSize line
    some (charIndex line start, charIndex line stop)
  else none

/-- A line with the characters that a range covers shaded. -/
def shadeCovered (range : Option SourceRange) (n : Nat) (line : List Char) (text : StyledText) :
    StyledText :=
  match range.bind fun r => coveredChars r n line with
  | some (start, stop) => shadeRange start stop (Style.plain.on Palette.shade) text
  | none => text

/-- The source with the current statement shaded. -/
def sourcePane (f : Frame) (code : String) (statement : Option SourceRange) (scroll : CodeScroll) :
    Canvas × CodeScroll :=
  let b := f.box " Source Code "
  let lines := Text.displayLines code.toList
  let current := statement.map fun r => r.start.line
  let scroll := scroll.follow current lines.length b.pageHeight
  (drawCode b (codeLines (shadeCovered statement) current scroll.offset b.pageHeight lines), scroll)

/-- The marked part of a mask line: blanks, then at least one block. -/
def markedRange? (block : Char) (line : List Char) : Option (Nat × Nat) :=
  let indent := (line.takeWhile (· == ' ')).length
  let width := ((line.drop indent).takeWhile (· == block)).length
  if 0 < width then some (indent, indent + width) else none

/-- The marked parts of a mask, each with the number of its line. -/
def maskRanges (mask : List Char) (block : Char) : List (Nat × Nat × Nat) :=
  ((Text.splitAtNewline mask).zipIdx 1).filterMap fun (line, n) =>
    (markedRange? block line).map (n, ·)

/-- A line with its marked parts shaded. -/
def shadeMarked (marked : List (Nat × Nat × Nat)) (n : Nat) (_ : List Char) (text : StyledText) :
    StyledText :=
  (marked.filter fun (line, _) => line == n).foldl
    (fun text (_, start, stop) =>
      shadeRange start stop (Style.plain.on Palette.shade).inBold text) text

/-- The evaluated source with the part that a mask marks shaded. -/
def evaluatedPane (f : Frame) (code : String) (mask : Option String) (block : Char)
    (scroll : CodeScroll) : Canvas × CodeScroll :=
  let b := f.box " Evaluated "
  let lines := Text.displayLines code.toList
  let marked := (mask.map fun m => maskRanges m.toList block).getD []
  let current := marked.head?.map Prod.fst
  let scroll := scroll.follow current lines.length b.pageHeight
  (drawCode b (codeLines (shadeMarked marked) current scroll.offset b.pageHeight lines), scroll)

/-! ## Lists -/

/-- The page of a list at an offset. -/
def page {α : Type} (offset height : Nat) (items : List α) : List α :=
  (items.drop offset).take height

/-- A box that holds a remark in place of a list. -/
def remark (f : Frame) (title text : String) : Canvas :=
  let b := { f.box title with ground := .colored Palette.grey }
  b.draw [row b.innerWidth b.ground [.ofString text Style.plain]]

/-- The output of the program; the first line is the banner. -/
def outputPane (f : Frame) (text : String) (offset : Nat) : Canvas × Nat :=
  let b := f.box " Output "
  let lines := Text.displayLines text.toList
  let offset := clampScroll offset lines.length b.pageHeight
  let rows := (page offset b.pageHeight (lines.zipIdx)).map fun (line, i) =>
    let style := Style.colored (if i = 0 then Palette.grey else Palette.text)
    let text := itemRow (b.innerWidth - 1) style [⟨line, Style.plain⟩]
    fitLeft b.innerWidth Style.plain (blank Style.plain :: text)
  (b.draw rows, offset)

/-- The line of a variable: type, name and value. -/
def variableRuns (v : Variable) : List Run :=
  [.ofString (v.type ++ " ") (.colored Palette.teal),
    .ofString v.identifier (.colored Palette.text),
    .ofString " = " (.colored Palette.grey),
    .ofString (v.shown?.getD "?") (.colored Palette.pink)]

/-- The variables. -/
def variablesPane (f : Frame) (vs : List Variable) (offset : Nat) : Canvas × Nat :=
  if vs.isEmpty then (remark f " Variables " "(no variables)", offset)
  else
    let b := f.box " Variables "
    let offset := clampScroll offset vs.length b.pageHeight
    let rows := (page offset b.pageHeight vs).map fun v =>
      itemRow b.innerWidth Style.plain (variableRuns v)
    (b.draw rows, offset)

/-- The value of a step as it is shown. -/
def stepValue? (s : Step) : Option String := s.value.map fun v => v.value.format v.type

/-- An argument of a call: its name, its value or both. -/
def argumentText (parameter : Step) : String :=
  match parameter.identifier, stepValue? parameter with
  | some name, some value => name ++ "=" ++ value
  | none, some value => value
  | some name, none => name
  | none, none => "?"

/-- A call with its arguments. -/
def callText (c : Call) : String :=
  c.name ++ "(" ++ String.intercalate ", " (c.parameters.map argumentText) ++ ")"

/-- The line of a call at a depth; a value that it returned follows an arrow. -/
def callRuns (depth : Nat) (c : Call) : List Run :=
  let style :=
    if c.isFinished then Style.colored Palette.dullYellow else (Style.colored Palette.yellow).inBold
  let result :=
    match c.returns.head?.bind stepValue? with
    | some value =>
      [.ofString " → " (.colored Palette.grey), .ofString value (.colored Palette.pink)]
    | none => []
  ⟨List.replicate (2 * depth) ' ', Style.plain⟩ :: .ofString (callText c) style :: result

/-- The lines of pending calls with their depths: the first call, the calls it made, then the others.
-/
def pendingLines : List (Nat × Call) → List (List Run)
  | [] => []
  | (depth, c) :: pending =>
    callRuns depth c :: pendingLines (c.madeAt (depth + 1) ++ pending)
termination_by pending => Call.sizes (pending.map Prod.snd)
decreasing_by
  rw [List.map_append, c.map_snd_madeAt, Call.sizes_append, List.map_cons, Call.sizes, c.size_eq]
  omega

/-- The lines of a call tree, each call before the calls it made. -/
def callLines (root : Call) : List (List Run) := pendingLines [(0, root)]

/-- The calls. -/
def callsPane (f : Frame) (tree : Option Call) (offset : Nat) : Canvas × Nat :=
  match tree with
  | none => (remark f " Calls " "(no calls)", offset)
  | some root =>
    let b := f.box " Calls "
    let lines := callLines root
    let offset := clampScroll offset lines.length b.pageHeight
    (b.draw ((page offset b.pageHeight lines).map (itemRow b.innerWidth Style.plain)), offset)

/-! ## The status bar -/

/-- What the status bar tells. -/
structure Status where
  message : String
  cursor : Nat
  total : Nat
  label : Option String
  mode : StepMode
  isPlaying : Bool
  isAtStart : Bool
  isAtEnd : Bool
  isError : Bool
  deriving DecidableEq, Repr

namespace Status

/-- The ground of the bar. -/
def ground : Style := Style.plain.on Palette.bar

/-- Text of a colour on the bar. -/
def onBar (c : Color) : Style := (Style.colored c).on Palette.bar

/-- Black text on a coloured badge. -/
def badgeStyle (c : Color) : Style := (Style.colored .black).on c

/-- The position among the steps. -/
def positionText (s : Status) : String :=
  if s.total = 0 then " Step 0/0 "
  else " Step " ++ toString (s.cursor + 1) ++ "/" ++ toString s.total ++ " "

/-- The left half: position, label and message. -/
def left (s : Status) : List Run :=
  [.ofString s.positionText (badgeStyle (if s.isError then Palette.red else Palette.blue)).inBold,
    .ofString (" " ++ s.label.getD "-" ++ " ") (onBar Palette.orange),
    .ofString "| " (onBar Palette.grey),
    .ofString (s.message ++ " ") (onBar (if s.isError then Palette.red else Palette.text))]

/-- The mark of playing, of the end or of the start. -/
def badge? (s : Status) : Option (String × Color) :=
  if s.isPlaying then some (" ▶ PLAYING ", Palette.orange)
  else if s.isAtEnd then some (" END ", Palette.red)
  else if s.isAtStart then some (" START ", Palette.green)
  else none

/-- A bar between two entries. -/
def separator : Run := .ofString "│" (onBar Palette.grey)

/-- A key and what it does. -/
def keyRuns (key description : String) : List Run :=
  [.ofString key (badgeStyle Palette.grey), .ofString description (onBar Palette.text)]

/-- The right half: the keys, and the mark if there is one. -/
def right (s : Status) : List Run :=
  keyRuns " ←/→ " (" step (" ++ s.mode.name ++ ") ") ++ separator :: keyRuns " ⎵ " " play " ++
    separator :: keyRuns " ↵ / ⌫ " " end/start " ++ separator :: keyRuns " q " " quit " ++
    match s.badge? with
    | some (label, color) => [separator, .ofString label (badgeStyle color).inBold]
    | none => []

end Status

/-- The status bar, its two halves side by side. -/
def statusBar (width : Nat) (s : Status) : List Cell :=
  row (share width 50) Status.ground s.left ++
    rowRight (width - share width 50) Status.ground s.right

end Retrace.Viewer
