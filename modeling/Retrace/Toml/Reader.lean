import Retrace.Toml.Scalar

/-!
# Reading TOML text

The lines of a TOML text: blank ones, comments, keys with values, and headers. A key is bare or
quoted, and dots join several. Arrays may run over lines; inline tables may not. How deep values
nest is bounded, and so is how many keys dots join.
-/

namespace Retrace.Toml

/-- Whether a character may stand in a bare key. -/
def isBare (c : Char) : Bool := c.isAlphanum || c == '_' || c == '-'

/-- One key, bare or in quotes. -/
def simpleKey? (s : List Char) : Option (String × List Char) :=
  match s with
  | '"' :: rest =>
    (basicString? [] (rest.length + 1) rest).map fun (key, rest) => (String.ofList key, rest)
  | '\'' :: rest => (literalString? rest).map fun (key, rest) => (String.ofList key, rest)
  | _ =>
    let key := s.takeWhile isBare
    if key.isEmpty then none else some (String.ofList key, s.dropWhile isBare)

/-- How many keys dots may join, and how many arrays and inline tables may stand in one another. -/
def nestingLimit : Nat := 79

/-- At most `count` keys joined by dots, with blanks around each; the last one stands apart. -/
def joinedKeys? : (count : Nat) → List Char → Option ((List String × String) × List Char)
  | 0, _ => none
  | count + 1, s => do
    let (key, rest) ← simpleKey? (skipSpace s)
    match skipSpace rest with
    | '.' :: rest =>
      let ((path, last), rest) ← joinedKeys? count rest
      some ((key :: path, last), rest)
    | rest => some (([], key), rest)

/-- A key, which leads through the tables of its path to its last part. -/
def key? (s : List Char) : Option ((List String × String) × List Char) :=
  joinedKeys? nestingLimit s

/-- The text after a comment, when one follows. -/
def skipComment (s : List Char) : List Char :=
  match s with
  | '#' :: rest => rest.dropWhile isPlain
  | _ => s

/-- The text after blanks, comments and newlines. -/
def skipTrivia : Nat → List Char → List Char
  | 0, s => s
  | fuel + 1, s =>
    let rest := skipComment (skipSpace s)
    match newline? rest with
    | some rest => skipTrivia fuel rest
    | none => rest

mutual

/-- A value in which arrays and inline tables stand at most `depth` deep. -/
def value? (depth : Nat) : Nat → List Char → Option (Toml × List Char)
  | 0, _ => none
  | fuel + 1, s =>
    match s, depth with
    | '[' :: _, 0 | '\x7b' :: _, 0 => none
    | '[' :: rest, depth + 1 =>
      (elements? depth fuel rest).map fun (elements, rest) => (.array elements, rest)
    | '\x7b' :: rest, depth + 1 =>
      match skipSpace rest with
      | '\x7d' :: rest => some (.inlineTable [], rest)
      | rest =>
        (inlineEntries? depth fuel [] rest).map fun (entries, rest) => (.inlineTable entries, rest)
    | _, _ => scalarValue? s

/-- The elements of an array up to its closing bracket; a comma may follow the last. -/
def elements? (depth : Nat) : Nat → List Char → Option (List Toml × List Char)
  | 0, _ => none
  | fuel + 1, s =>
    match skipTrivia s.length s with
    | ']' :: rest => some ([], rest)
    | s => do
      let (value, rest) ← value? depth fuel s
      match skipTrivia rest.length rest with
      | ']' :: rest => some ([value], rest)
      | ',' :: rest =>
        (elements? depth fuel rest).map fun (values, rest) => (value :: values, rest)
      | _ => none

/-- The entries of an inline table up to its closing brace, at least one. -/
def inlineEntries? (depth : Nat) : Nat → Entries → List Char → Option (Entries × List Char)
  | 0, _, _ => none
  | fuel + 1, entries, s => do
    let (key, rest) ← key? s
    let rest ← expect? '=' rest
    let (value, rest) ← value? depth fuel (skipSpace rest)
    let entries ← insertKey? key value entries
    match skipSpace rest with
    | '\x7d' :: rest => some (entries, rest)
    | ',' :: rest => inlineEntries? depth fuel entries rest
    | _ => none

end

/-- The text after the end of a line: blanks, an optional comment, and a newline unless the text
ends. -/
def lineEnd? (s : List Char) : Option (List Char) :=
  match skipComment (skipSpace s) with
  | [] => some []
  | rest => newline? rest

/-- A document under construction: its entries, and the path of the table that keys now go to. -/
structure Document where
  entries : Entries
  path : List String

/-- The document after one more line. -/
def Document.readLine? (doc : Document) (s : List Char) : Option (Document × List Char) :=
  match s with
  | '[' :: '[' :: rest => do
    let (key, rest) ← key? rest
    let rest ← (expect? ']' rest).bind (expect? ']')
    some (⟨← appendTable? key doc.entries, key.1 ++ [key.2]⟩, ← lineEnd? rest)
  | '[' :: rest => do
    let (key, rest) ← key? rest
    let rest ← expect? ']' rest
    some (⟨← openTable? key doc.entries, key.1 ++ [key.2]⟩, ← lineEnd? rest)
  | '#' :: _ | '\n' :: _ | '\r' :: _ => (lineEnd? s).map fun rest => (doc, rest)
  | _ => do
    let (key, rest) ← key? s
    let rest ← expect? '=' rest
    let (value, rest) ← value? nestingLimit (2 * s.length + 2) (skipSpace rest)
    let entries ← changeAt? (insertKey? key value) doc.path doc.entries
    some ({ doc with entries := entries }, ← lineEnd? rest)

/-- The entries of a document after the lines of a text, of which there are at most `fuel`. -/
def Document.readAll? (doc : Document) : Nat → List Char → Option Entries
  | 0, _ => none
  | fuel + 1, s =>
    match skipSpace s with
    | [] => some doc.entries
    | s => do
      let (doc, rest) ← doc.readLine? s
      doc.readAll? fuel rest

/-- The entries of a TOML text, when the text is one. -/
def read? (text : String) : Option Entries :=
  let s := text.toList
  let s := if s.head? = some '\ufeff' then s.tail else s
  Document.readAll? ⟨[], []⟩ (s.length + 1) s

end Retrace.Toml
