import Retrace.Viewer.Style

/-!
# Canvases

A canvas is a grid of styled cells, row by row. Text is cut at the right end of its row and never
wraps; a newline in it, with or without a carriage return, takes no cell. A box has a border with a
title in its top row and content inside.

* `row`, `rowRight`: a row of a given width from text on a ground style.
* `itemRow`: the row of a list item, whose cells keep the newlines that have a carriage return.
* `Box.draw`: a border around rows.
* `share`: the cells that a share of a length takes.
* `beside`, `above`: canvases put together.
-/

namespace Retrace.Viewer

/-- One cell of a screen: what it shows, and how. -/
abbrev Cell := String × Style

/-- Rows of cells. -/
abbrev Canvas := List (List Cell)

/-- An empty cell on a ground. -/
def blank (ground : Style) : Cell := (" ", ground)

/-- A text without its newlines, with or without a carriage return. -/
def withoutNewlines : List Char → List Char
  | '\r' :: '\n' :: rest => withoutNewlines rest
  | c :: rest => if c = '\n' then withoutNewlines rest else c :: withoutNewlines rest
  | [] => []

/-- The cells of a run, laid over a ground. -/
def drawn (ground : Style) (r : Run) : List Cell :=
  (withoutNewlines r.text).map fun c => (String.singleton c, r.style.onto ground)

/-- The newlines with a carriage return at the front of a text, and what the cells after them hold:
a character, and those newlines that follow it. -/
def gather : List Char → List Char × List (List Char)
  | '\r' :: '\n' :: rest =>
    let (ends, cells) := gather rest
    ('\r' :: '\n' :: ends, cells)
  | c :: rest =>
    let (ends, cells) := gather rest
    if c = '\n' then (ends, cells) else ([], (c :: ends) :: cells)
  | [] => ([], [])

/-- What the cells of a list item's text hold; the first one also holds the newlines before it. -/
def itemTexts (text : List Char) : List (List Char) :=
  match gather text with
  | (_, []) => []
  | (ends, first :: rest) => (ends ++ first) :: rest

/-- The cells of a run in a list item, laid over a ground. -/
def drawnItem (ground : Style) (r : Run) : List Cell :=
  (itemTexts r.text).map fun text => (String.ofList text, r.style.onto ground)

/-- Cells cut to a width, or filled up at the right. -/
def fitLeft (width : Nat) (ground : Style) (cells : List Cell) : List Cell :=
  (cells ++ List.replicate (width - cells.length) (blank ground)).take width

/-- Cells cut to a width at the right, or filled up at the left. -/
def fitRight (width : Nat) (ground : Style) (cells : List Cell) : List Cell :=
  (List.replicate (width - cells.length) (blank ground) ++ cells).take width

/-- A row of text that starts at the left. -/
def row (width : Nat) (ground : Style) (text : List Run) : List Cell :=
  fitLeft width ground (text.flatMap (drawn ground))

/-- A row of text that ends at the right. -/
def rowRight (width : Nat) (ground : Style) (text : List Run) : List Cell :=
  fitRight width ground (text.flatMap (drawn ground))

/-- The row of a list item. -/
def itemRow (width : Nat) (ground : Style) (text : List Run) : List Cell :=
  fitLeft width ground (text.flatMap (drawnItem ground))

/-- Rows cut to a height, or filled up with empty ones. -/
def fitRows (width height : Nat) (ground : Style) (rows : List (List Cell)) : List (List Cell) :=
  (rows ++ List.replicate (height - rows.length) (List.replicate width (blank ground))).take height

/-- A share of a length in hundredths, to the nearest whole cell, a half rounded up. -/
def share (length percent : Nat) : Nat := (length * percent + 50) / 100

/-- A canvas to the left of another of the same height. -/
def beside (left right : Canvas) : Canvas := List.zipWith (· ++ ·) left right

/-- A canvas above another. -/
def above (top bottom : Canvas) : Canvas := top ++ bottom

/-- A border with a title, on a ground that shows through. -/
structure Box where
  title : String
  focused : Bool
  width : Nat
  height : Nat
  ground : Style := Style.plain

namespace Box

/-- The style of the border: bright and bold with the focus, else quiet. -/
def borderStyle (b : Box) : Style :=
  let style :=
    if b.focused then (Style.colored Palette.yellow).inBold else Style.colored Palette.grey
  style.onto b.ground

/-- The width between the sides. -/
def innerWidth (b : Box) : Nat := b.width - 2

/-- The height between top and bottom. -/
def innerHeight (b : Box) : Nat := b.height - 2

/-- How many lines a pane counts on, however low the box is. -/
def pageHeight (b : Box) : Nat := max 1 b.innerHeight

/-- A row that runs from corner to corner. -/
def edge (b : Box) (left right : Char) (title : List Char) : List Cell :=
  let line := (title ++ List.replicate (b.innerWidth - title.length) '─').take b.innerWidth
  ((left :: line ++ [right]).take b.width).map fun c => (String.singleton c, b.borderStyle)

/-- A row between the sides. -/
def side (b : Box) (inner : List Cell) : List Cell :=
  (("│", b.borderStyle) :: inner ++ [("│", b.borderStyle)]).take b.width

/-- The box with content inside. -/
def draw (b : Box) (content : List (List Cell)) : Canvas :=
  let inner := (fitRows b.innerWidth b.innerHeight b.ground content).map b.side
  (b.edge '┌' '┐' b.title.toList :: inner ++ [b.edge '└' '┘' []]).take b.height

end Box

end Retrace.Viewer
