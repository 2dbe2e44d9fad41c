/-!
# Scrolling

Lists scroll by a number of items, held within the last full page when they are drawn. Code panes
follow the current line instead: they keep it on a row of its own choice, as far as the text allows.

Models `SourceScrollState` and `clamp_scroll`.

* `clampScroll`: an offset held within the last full page.
* `CodeScroll.follow`: the offset that puts the current line on its row.
-/

namespace Retrace.Viewer

/-- The greatest offset; a pane set to it shows its last page. -/
def maxOffset : Nat := UInt64.size - 1

/-- The next offset, up to the greatest one. -/
def nextOffset (offset : Nat) : Nat := min maxOffset (offset + 1)

/-- An offset held within the last full page of a list. -/
def clampScroll (offset total height : Nat) : Nat :=
  if height < total then min offset (total - height) else 0

/-- The scroll state of a code pane: its first line, from zero, and the row meant for the current
line. -/
structure CodeScroll where
  offset : Nat := 0
  target : Option Nat := none
  deriving DecidableEq, Repr

namespace CodeScroll

/-- The row meant for the current line: the one asked for, or the middle, but on the screen. -/
def targetRow (s : CodeScroll) (height : Nat) : Nat := min (s.target.getD (height / 2)) (height - 1)

/-- The offset that puts line `line`, from one, on row `row`, within the last full page. -/
def offsetFor (line row total height : Nat) : Nat :=
  if height < total then min (line - 1 - row) (total - height) else 0

/-- The state once the pane has followed the current line, if that is a line of the text. -/
def follow (s : CodeScroll) (current : Option Nat) (total height : Nat) : CodeScroll :=
  let row := s.targetRow height
  match current with
  | some line =>
    if 0 < line ∧ line ≤ total then ⟨offsetFor line row total height, some row⟩
    else ⟨s.offset, some row⟩
  | none => ⟨s.offset, some row⟩

/-- Moves the current line down a row. -/
def up (s : CodeScroll) : CodeScroll := { s with target := s.target.map nextOffset }

/-- Moves the current line up a row. -/
def down (s : CodeScroll) : CodeScroll := { s with target := s.target.map (· - 1) }

end CodeScroll

end Retrace.Viewer
