/-!
# Styles

Colours and weight of text on a screen. A style may leave a colour unset; laid over another style it
then lets that colour show through. Styled characters with one style in a row form a run.

Models `DEFAULT_THEME` and `to_spans`.

* `Style.onto`: one style laid over another.
* `runs`, `unruns`: characters grouped into runs, and back.
-/

namespace Retrace.Viewer

/-- A colour of the palette. -/
inductive Color where
  | black
  | rgb (red green blue : UInt8)
  deriving DecidableEq, Repr

/-- How a character is drawn. -/
structure Style where
  foreground : Option Color := none
  background : Option Color := none
  bold : Bool := false
  deriving DecidableEq, Repr

namespace Style

/-- Nothing set. -/
def plain : Style := {}

/-- A foreground colour alone. -/
def colored (c : Color) : Style := { foreground := some c }

/-- The style laid over another. -/
def onto (top below : Style) : Style where
  foreground := top.foreground.or below.foreground
  background := top.background.or below.background
  bold := top.bold || below.bold

/-- The style in bold. -/
def inBold (s : Style) : Style := { s with bold := true }

/-- The style on a background. -/
def on (s : Style) (c : Color) : Style := { s with background := some c }

end Style

/-- Characters, each with its style. -/
abbrev StyledText := List (Char × Style)

/-- Consecutive characters with one style. -/
structure Run where
  text : List Char
  style : Style
  deriving DecidableEq, Repr

namespace Run

/-- A run of a text. -/
def ofString (s : String) (style : Style) : Run := ⟨s.toList, style⟩

/-- The characters of a run, each with its style. -/
def chars (r : Run) : StyledText := r.text.map fun c => (c, r.style)

end Run

/-- A character in front of runs; it joins the first one when the styles are equal. -/
def consRun (c : Char) (style : Style) : List Run → List Run
  | [] => [⟨[c], style⟩]
  | r :: rest => if r.style = style then ⟨c :: r.text, style⟩ :: rest else ⟨[c], style⟩ :: r :: rest

/-- Characters grouped into runs of one style. -/
def runs : StyledText → List Run
  | [] => []
  | (c, style) :: rest => consRun c style (runs rest)

/-- The characters of runs in order. -/
def unruns (rs : List Run) : StyledText := rs.flatMap Run.chars

/-! ## The palette -/

namespace Palette

/-- Text. -/
def text : Color := .rgb 205 214 244

/-- Brackets, keywords and the position of the cursor. -/
def blue : Color := .rgb 137 180 250

/-- Literals, labels and the current line's number. -/
def orange : Color := .rgb 250 179 135

/-- Comments, separators and quiet borders. -/
def grey : Color := .rgb 108 112 134

/-- The start of the run. -/
def green : Color := .rgb 166 227 161

/-- Errors and the end of the run. -/
def red : Color := .rgb 243 139 168

/-- Functions, running calls and the focused border. -/
def yellow : Color := .rgb 249 226 175

/-- Finished calls. -/
def dullYellow : Color := .rgb 180 165 120

/-- Types. -/
def teal : Color := .rgb 148 226 213

/-- Values. -/
def pink : Color := .rgb 245 194 231

/-- The background of the status bar. -/
def bar : Color := .rgb 50 50 70

/-- The background of the current statement. -/
def shade : Color := .rgb 69 71 110

end Palette

end Retrace.Viewer
