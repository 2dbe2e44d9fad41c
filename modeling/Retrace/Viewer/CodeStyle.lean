import Retrace.Text.Alphanumeric
import Retrace.Text.Bytes
import Retrace.Viewer.Style

/-!
# Styled lines of code

A line of C is styled character by character, so that any part of it can be shaded before it is
drawn. A line comment runs to the end; a quoted text to its closing quote, a backslash taking the
next character along; words are styled as a whole; everything else stands alone.

Models `style_line`, `patch_range`, `numbered_line` and `char_index`.

* `styleLine`: the characters of a line with their styles.
* `shadeRange`: a style laid over part of a line.
* `numberedLine`: the line behind its number, with a marker when it is current.
-/

namespace Retrace.Viewer

/-- Whether a character belongs to words. -/
def isWordChar (c : Char) : Bool := Text.isAlphanumeric c || c == '_'

/-- The names of types and their modifiers. -/
def typeNames : List String :=
  ["int", "char", "void", "bool", "_Bool", "float", "double", "long", "short", "unsigned", "signed",
    "const"]

/-- The keywords of statements and declarations. -/
def keywords : List String :=
  ["struct", "return", "if", "else", "while", "for", "do", "switch", "case", "default", "break",
    "continue", "goto", "sizeof"]

/-- The style of a word, `called` telling whether a parenthesis follows it. -/
def wordStyle (word : List Char) (called : Bool) : Style :=
  if typeNames.contains (String.ofList word) then .colored Palette.teal
  else if keywords.contains (String.ofList word) then (Style.colored Palette.blue).inBold
  else if word = "NULL".toList then .colored Palette.orange
  else if word.head?.any Char.isDigit then .colored Palette.orange
  else if called then .colored Palette.yellow
  else .colored Palette.text

/-- The style of a character outside words, quotes and comments. -/
def symbolStyle (c : Char) : Style :=
  if "\x7b\x7d()[]".toList.contains c then .colored Palette.blue else .colored Palette.text

/-- Every character with one style. -/
def styled (style : Style) (s : List Char) : StyledText := s.map fun c => (c, style)

/-- A quoted text up to its closing quote, and what follows; the text is what is behind the opening
quote. -/
def splitQuoted (quote : Char) : List Char → List Char × List Char
  | [] => ([], [])
  | ['\\'] => (['\\'], [])
  | '\\' :: c :: rest =>
    let (text, rest) := splitQuoted quote rest
    ('\\' :: c :: text, rest)
  | c :: rest =>
    if c = quote then ([c], rest)
    else
      let (text, rest) := splitQuoted quote rest
      (c :: text, rest)

theorem splitQuoted_append (quote : Char) (s : List Char) :
    (splitQuoted quote s).1 ++ (splitQuoted quote s).2 = s := by
  fun_induction splitQuoted quote s with
  | case1 => rfl
  | case2 => rfl
  | case3 => simp_all
  | case4 => rfl
  | case5 => simp_all

theorem length_splitQuoted_le (quote : Char) (s : List Char) :
    (splitQuoted quote s).2.length ≤ s.length := by
  have h := congrArg List.length (splitQuoted_append quote s)
  rw [List.length_append] at h
  omega

theorem length_dropWhile_le (p : Char → Bool) (s : List Char) : (s.dropWhile p).length ≤ s.length :=
  (List.dropWhile_suffix p).length_le

/-- The characters of a line with their styles. -/
def styleLine : List Char → StyledText
  | [] => []
  | c :: rest =>
    if c = '/' ∧ rest.head? = some '/' then styled (.colored Palette.grey) (c :: rest)
    else if c = '"' ∨ c = '\'' then
      have := length_splitQuoted_le c rest
      styled (.colored Palette.orange) (c :: (splitQuoted c rest).1) ++
        styleLine (splitQuoted c rest).2
    else if isWordChar c then
      have := length_dropWhile_le isWordChar rest
      let word := c :: rest.takeWhile isWordChar
      let after := rest.dropWhile isWordChar
      styled (wordStyle word (after.head? = some '(')) word ++ styleLine after
    else (c, symbolStyle c) :: styleLine rest
termination_by s => s.length
decreasing_by all_goals simp only [List.length_cons] at *; omega

/-- A style laid over the characters from position `start` up to `stop`. -/
def shadeRange (start stop : Nat) (style : Style) (text : StyledText) : StyledText :=
  text.mapIdx fun i (c, below) => if start ≤ i ∧ i < stop then (c, style.onto below) else (c, below)

/-- The number of characters before a byte position of a line, or of all when it is inside a
character. -/
def charIndex (line : List Char) (position : Nat) : Nat :=
  match Text.takeBytes? (min position (Text.byteSize line)) line with
  | some before => before.length
  | none => line.length

/-- A line number as it stands before a line, at least four columns wide. -/
def lineNumber (n : Nat) : List Char :=
  let digits := (toString n).toList
  List.replicate (4 - digits.length) ' ' ++ digits

/-- A line behind its number, with a marker when it is the current one. -/
def numberedLine (n : Nat) (current : Bool) (text : StyledText) : List Run :=
  let style := if current then (Style.colored Palette.orange).inBold else .colored Palette.grey
  ⟨lineNumber n ++ [if current then '▶' else ' ', ' '], style⟩ :: runs text

end Retrace.Viewer
