import Retrace.Source.Location
import Retrace.Text.Bytes
import Retrace.Text.Lines

/-!
# Offsets and locations

A line index keeps the byte widths of a text's lines, newlines excluded; it carries byte offsets to
locations and back. A column may point just past the last byte of its line, where the newline
stands.

Models `LineIndex` with `location`, `offset` and `offset_range`.

* `LineIndex.location`: the location of an offset; offsets beyond the end have the end's location.
* `LineIndex.offset?`: the offset of a location that names a position in the text.
* `LineIndex.fits`: whether the sum that gives the offset is one that a machine word holds.
* `LineIndex.offsets?`: the byte span of a range whose ends are positions in order.
-/

namespace Retrace

/-- The byte widths of a text's lines; every text has at least one. -/
structure LineIndex where
  widths : List Nat
  deriving DecidableEq, Repr

namespace LineIndex

/-- The index of a text. -/
def ofText (text : List Char) : LineIndex := ⟨(Text.splitAtNewline text).map Text.byteSize⟩

/-- The number of lines. -/
def lineCount (index : LineIndex) : Nat := index.widths.length

/-- The length in bytes of a text with lines of the given widths. -/
def sizeOfWidths : List Nat → Nat
  | [] => 0
  | [width] => width
  | width :: rest => width + 1 + sizeOfWidths rest

/-- The length of the indexed text in bytes. -/
def size (index : LineIndex) : Nat := sizeOfWidths index.widths

/-- The location of an offset counted from the start of line `line`, the first of `widths`. -/
def locate (line offset : Nat) : List Nat → Location
  | [] => ⟨line, 1⟩
  | [width] => ⟨line, min offset width + 1⟩
  | width :: rest =>
    if offset ≤ width then ⟨line, offset + 1⟩
    else locate (line + 1) (offset - (width + 1)) rest

/-- The location of a byte offset. -/
def location (index : LineIndex) (offset : Nat) : Location := locate 1 offset index.widths

/-- The byte span of the line with `line` lines of `widths` above it, newline excluded. -/
def lineSpan? (line : Nat) : List Nat → Option (Span Nat)
  | [] => none
  | width :: rest =>
    match line with
    | 0 => some ⟨0, width⟩
    | line + 1 => (lineSpan? line rest).map fun s => ⟨width + 1 + s.start, width + 1 + s.stop⟩

/-- The byte offset of a location, when it names a position in the text. The column is added to the
start of its line as a machine word. -/
def offset? (index : LineIndex) (l : Location) : Option Nat :=
  if l.line = 0 ∨ l.column = 0 then none
  else do
    let line ← lineSpan? (l.line - 1) index.widths
    let offset := wordSum line.start (l.column - 1)
    if offset ≤ line.stop then some offset else none

/-- Whether a machine word holds the sum of a location's column and the start of its line. Where none
does, `offset?` goes on from zero, and arithmetic that is checked stops. -/
def fits (index : LineIndex) (l : Location) : Bool :=
  (lineSpan? (l.line - 1) index.widths).all fun line => decide (line.start + l.column < UInt64.size)

/-- Whether the sums for both ends of a range fit. -/
def fitsRange (index : LineIndex) (r : SourceRange) : Bool := index.fits r.start && index.fits r.stop

/-- The byte span of a range, when both ends are positions in the text and in order. -/
def offsets? (index : LineIndex) (r : SourceRange) : Option (Span Nat) := do
  let start ← index.offset? r.start
  let stop ← index.offset? r.stop
  if start ≤ stop then some ⟨start, stop⟩ else none

end LineIndex

end Retrace
