/-!
# Lines of text

Two readings of a text as lines. `splitAtNewline` cuts at every newline, so that joining gives the
text back. `displayLines` is what a pane shows: a final newline opens no line of its own, and a
carriage return before a newline is not shown.
-/

namespace Retrace.Text

/-- The parts of a text between its occurrences of a character; always at least one. -/
def splitAtChar (separator : Char) : List Char → List (List Char)
  | [] => [[]]
  | c :: rest =>
    if c = separator then [] :: splitAtChar separator rest
    else
      match splitAtChar separator rest with
      | [] => [[c]]
      | part :: parts => (c :: part) :: parts

/-- The parts of a text between its newlines. -/
def splitAtNewline (s : List Char) : List (List Char) := splitAtChar '\n' s

/-- Lines joined by newlines. -/
def joinLines (lines : List (List Char)) : List Char := (lines.intersperse ['\n']).flatten

/-- A line that ended with a newline, without the carriage return before it. -/
def dropCarriageReturn : List Char → List Char
  | [] => []
  | ['\r'] => []
  | c :: rest => c :: dropCarriageReturn rest

/-- The displayed form of the parts between newlines: the last part is shown only when not empty. -/
def shownParts : List (List Char) → List (List Char)
  | [] => []
  | [last] => if last.isEmpty then [] else [last]
  | line :: rest => dropCarriageReturn line :: shownParts rest

/-- The lines a pane shows of a text. -/
def displayLines (s : List Char) : List (List Char) := shownParts (splitAtNewline s)

end Retrace.Text
