import Mathlib.Data.List.Basic
import Retrace.Viewer.Pane

/-!
# Code panes follow the current line

Between two drawings of a code pane its user may move the row that is meant for the current line, and the
text, the window and the current line may all change. A drawing makes up for that: from any state it puts
the current line on its row, as far as the first line and the last page allow, and in any case on the
screen. Nothing else moves the page.

* `ScrollMove`, `CodeScroll.perform`, `CodeScroll.performAll`: what can happen to the scroll state.
* `CodeScroll.Shows`: a page that shows the current line.
* `CodeScroll.shows_follow`: what a drawing does; `sourcePane_shows`: the state that a pane leaves.
* `CodeScroll.offset_performAll`: what scrolling does not do.
* `CodeScroll.shows_after_moves`: both after any moves.
-/

namespace Retrace.Viewer

/-- What can happen to the scroll state of a code pane: its user moves the current line by a row, or the
pane is drawn. -/
inductive ScrollMove where
  | up
  | down
  | follow (current : Option Nat) (total height : Nat)
  deriving DecidableEq, Repr

/-- A move of the user's. -/
def ScrollMove.IsScroll : ScrollMove → Prop
  | .up | .down => True
  | .follow _ _ _ => False

namespace CodeScroll

/-- The state after a move. -/
def perform (s : CodeScroll) : ScrollMove → CodeScroll
  | .up => s.up
  | .down => s.down
  | .follow current total height => s.follow current total height

/-- The state after moves. -/
def performAll (s : CodeScroll) (moves : List ScrollMove) : CodeScroll := moves.foldl perform s

/-- A window of `height` lines shows line `line` of `total` ones, counted from one. The line is on the
screen; no row stays empty while there are lines for it; and the line is on the row that is meant for it,
unless it has too few lines above it for that or would leave the last page behind. -/
structure Shows (s : CodeScroll) (line total height : Nat) : Prop where
  onScreen : s.offset ≤ line - 1 ∧ line - 1 < s.offset + height
  noTail : if total ≤ height then s.offset = 0 else s.offset + height ≤ total
  onRow : ∃ row, s.target = some row ∧ row < height ∧
    (s.offset + row = line - 1 ∨ (line - 1 < row ∧ s.offset = 0) ∨
      (total - height < line - 1 - row ∧ s.offset = total - height))

variable {s : CodeScroll} {line total height : Nat}

/-! ## Drawing -/

theorem targetRow_lt (s : CodeScroll) (h : 0 < height) : s.targetRow height < height := by
  unfold targetRow
  omega

theorem follow_of_isLine (s : CodeScroll) (height : Nat) (h : 0 < line ∧ line ≤ total) :
    s.follow (some line) total height =
      ⟨offsetFor line (s.targetRow height) total height, some (s.targetRow height)⟩ := by
  simp only [follow, if_pos h]

/-- **A drawing shows the current line**, whatever the state was before. -/
theorem shows_follow (s : CodeScroll) (hheight : 0 < height) (hline : 0 < line ∧ line ≤ total) :
    (s.follow (some line) total height).Shows line total height := by
  have hrow := s.targetRow_lt hheight
  rw [follow_of_isLine s height hline]
  generalize s.targetRow height = row at hrow
  by_cases htotal : height < total
  · have hoffset : offsetFor line row total height = min (line - 1 - row) (total - height) :=
      if_pos htotal
    rw [hoffset]
    refine ⟨by dsimp only; omega, ?_, row, rfl, hrow, by dsimp only; omega⟩
    rw [if_neg (Nat.not_le.mpr htotal)]
    dsimp only
    omega
  · have hoffset : offsetFor line row total height = 0 := if_neg htotal
    rw [hoffset]
    refine ⟨by dsimp only; omega, ?_, row, rfl, hrow, by dsimp only; omega⟩
    rw [if_pos (Nat.not_lt.mp htotal)]

/-! ## Scrolling -/

theorem performAll_append (s : CodeScroll) (p q : List ScrollMove) :
    s.performAll (p ++ q) = (s.performAll p).performAll q :=
  List.foldl_append

theorem offset_perform {m : ScrollMove} (h : m.IsScroll) : (s.perform m).offset = s.offset := by
  cases m with
  | up => rfl
  | down => rfl
  | follow current total height => exact h.elim

/-- **Scrolling moves the page only when the pane is drawn.** -/
theorem offset_performAll {scrolls : List ScrollMove} (h : ∀ m ∈ scrolls, m.IsScroll) :
    (s.performAll scrolls).offset = s.offset := by
  induction scrolls generalizing s with
  | nil => rfl
  | cons m scrolls ih =>
    obtain ⟨hm, hscrolls⟩ := List.forall_mem_cons.mp h
    exact (ih hscrolls).trans (offset_perform hm)

/-- **A code pane keeps up with the current line.** After any moves a drawing shows the current line if that
is a line of the text, and the page stays as it is while the user scrolls, until the next drawing. -/
theorem shows_after_moves (s : CodeScroll) (moves scrolls : List ScrollMove) (hheight : 0 < height)
    (hline : 0 < line ∧ line ≤ total) (hscrolls : ∀ m ∈ scrolls, m.IsScroll) :
    let drawn := s.performAll (moves ++ [.follow (some line) total height])
    drawn.Shows line total height ∧ (drawn.performAll scrolls).offset = drawn.offset := by
  intro drawn
  refine ⟨?_, offset_performAll hscrolls⟩
  have hdrawn : drawn = (s.performAll moves).follow (some line) total height :=
    performAll_append s moves _
  rw [hdrawn]
  exact shows_follow _ hheight hline

/-- The row meant for the current line comes from a higher window, in which it was also moved down. -/
theorem performAll_lowerWindow :
    0 < 10 ∧ (0 < 99 ∧ 99 ≤ 100) ∧ (∀ m ∈ [ScrollMove.down], m.IsScroll) ∧
    let drawn := performAll {} ([.follow (some 30) 100 40, .up, .up] ++ [.follow (some 99) 100 10])
    drawn = ⟨89, some 9⟩ ∧ drawn.Shows 99 100 10 ∧ (drawn.performAll [.down]).offset = drawn.offset := by
  have hheight : 0 < 10 := by decide
  have hline : 0 < 99 ∧ 99 ≤ 100 := by decide
  have hscrolls : ∀ m ∈ [ScrollMove.down], m.IsScroll := fun m hm => by
    rw [List.mem_singleton.mp hm]
    exact trivial
  exact ⟨hheight, hline, hscrolls, by decide,
    shows_after_moves {} [.follow (some 30) 100 40, .up, .up] [.down] hheight hline hscrolls⟩

end CodeScroll

/-- A pane counts on one line at least. -/
theorem Box.pageHeight_pos (b : Box) : 0 < b.pageHeight := Nat.le_max_left 1 _

/-- The source pane leaves a page that shows the line where the statement starts. -/
theorem sourcePane_shows (f : Frame) (code : String) (range : SourceRange) (scroll : CodeScroll)
    (h : 0 < range.start.line ∧ range.start.line ≤ (Text.displayLines code.toList).length) :
    (sourcePane f code (some range) scroll).2.Shows range.start.line
      (Text.displayLines code.toList).length (f.box " Source Code ").pageHeight :=
  scroll.shows_follow (Box.pageHeight_pos _) h

end Retrace.Viewer
