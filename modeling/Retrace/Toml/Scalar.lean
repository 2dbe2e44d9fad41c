import Retrace.Json.Number
import Retrace.Json.Reader
import Retrace.Toml.Tree

/-!
# Scalars of TOML text

Strings in their four forms, integers in four bases with underscores between digits, floats,
booleans and dates. Each reader takes what it reads off the front of the text.
-/

namespace Retrace.Toml

/-- The blanks within a line. -/
def isSpace (c : Char) : Bool := c == ' ' || c == '\t'

/-- The text after blanks. -/
def skipSpace (s : List Char) : List Char := s.dropWhile isSpace

/-- Whether a character may stand in a comment or a literal string. -/
def isPlain (c : Char) : Bool := c == '\t' || (0x20 ≤ c.toNat && c.toNat != 0x7f)

/-- The text after a newline, with or without a carriage return. -/
def newline? : List Char → Option (List Char)
  | '\n' :: rest => some rest
  | '\r' :: '\n' :: rest => some rest
  | _ => none

/-- The text after a newline, when there is one. -/
def skipNewline (s : List Char) : List Char := (newline? s).getD s

/-- The number of exactly `count` hexadecimal digits. -/
def hexDigits? (count : Nat) (s : List Char) : Option (Nat × List Char) := do
  let digits ← (s.take count).mapM Json.hexDigit?
  if digits.length = count then some (digits.foldl (fun n d => 16 * n + d) 0, s.drop count)
  else none

/-- The character of a code point that stands for one. -/
def scalar? (n : Nat) : Option Char := if n.isValidChar then some (Char.ofNat n) else none

/-- The character of an escape, after the backslash. -/
def escape? : List Char → Option (Char × List Char)
  | 'b' :: rest => some ('\x08', rest)
  | 't' :: rest => some ('\t', rest)
  | 'n' :: rest => some ('\n', rest)
  | 'f' :: rest => some ('\x0c', rest)
  | 'r' :: rest => some ('\r', rest)
  | '"' :: rest => some ('"', rest)
  | '\\' :: rest => some ('\\', rest)
  | 'u' :: rest => do
    let (n, rest) ← hexDigits? 4 rest
    some (← scalar? n, rest)
  | 'U' :: rest => do
    let (n, rest) ← hexDigits? 8 rest
    some (← scalar? n, rest)
  | _ => none

/-- A basic string after its quote, `read` being what was read of it in reverse. -/
def basicString? (read : List Char) : Nat → List Char → Option (List Char × List Char)
  | 0, _ => none
  | fuel + 1, s =>
    match s with
    | [] => none
    | '"' :: rest => some (read.reverse, rest)
    | '\\' :: rest => do
      let (c, rest) ← escape? rest
      basicString? (c :: read) fuel rest
    | c :: rest => if isPlain c then basicString? (c :: read) fuel rest else none

/-- A literal string after its quote. -/
def literalString? (s : List Char) : Option (List Char × List Char) :=
  match s.dropWhile (fun c => c != '\'' && isPlain c) with
  | '\'' :: rest => some (s.takeWhile (fun c => c != '\'' && isPlain c), rest)
  | _ => none

/-- The text after blanks and newlines; a carriage return alone is neither. -/
def skipBlank : List Char → List Char
  | '\r' :: '\n' :: rest => skipBlank rest
  | c :: rest => if isSpace c || c == '\n' then skipBlank rest else c :: rest
  | [] => []

/-- The text after the blanks and newlines that a backslash at the end of a line swallows. -/
def skipLineEnd? (s : List Char) : Option (List Char) := (newline? (skipSpace s)).map skipBlank

/-- How many of the quotes at the front of a text belong to a string that three quotes close. -/
def closingQuotes? (quote : Char) (s : List Char) : Option Nat :=
  let quotes := (s.takeWhile (· == quote)).length
  if quotes < 3 then none else some (min 2 (quotes - 3))

/-- A string of several lines after its quotes; `escapes` tells basic strings from literal ones. -/
def longString? (quote : Char) (escapes : Bool) (read : List Char) : Nat → List Char →
    Option (List Char × List Char)
  | 0, _ => none
  | fuel + 1, s =>
    match closingQuotes? quote s with
    | some inside => some (read.reverse ++ List.replicate inside quote, s.drop (inside + 3))
    | none =>
      match s, newline? s with
      | _, some rest => longString? quote escapes ('\n' :: read) fuel rest
      | [], _ => none
      | c :: rest, none =>
        if escapes && c == '\\' then
          match skipLineEnd? rest with
          | some rest => longString? quote escapes read fuel rest
          | none => do
            let (c, rest) ← escape? rest
            longString? quote escapes (c :: read) fuel rest
        else if isPlain c then longString? quote escapes (c :: read) fuel rest
        else none

/-- A string in any of its four forms. -/
def string? (s : List Char) : Option (String × List Char) :=
  let read :=
    match s with
    | '"' :: '"' :: '"' :: rest => longString? '"' true [] (s.length + 1) (skipNewline rest)
    | '\'' :: '\'' :: '\'' :: rest => longString? '\'' false [] (s.length + 1) (skipNewline rest)
    | '"' :: rest => basicString? [] (s.length + 1) rest
    | '\'' :: rest => literalString? rest
    | _ => none
  read.map fun (text, rest) => (String.ofList text, rest)

/-- The value of a digit in a base. -/
def digit? (base : Nat) (c : Char) : Option Nat := (Json.hexDigit? c).filter (· < base)

/-- Digits in a base, with single underscores allowed between them. -/
def digits? (base : Nat) : List Char → Option (List Nat × List Char)
  | [] => none
  | c :: '_' :: rest => do
    let d ← digit? base c
    let (ds, rest) ← digits? base rest
    some (d :: ds, rest)
  | c :: rest => do
    let d ← digit? base c
    match digits? base rest with
    | some (ds, rest) => some (d :: ds, rest)
    | none => some ([d], rest)

/-- The number that digits in a base stand for. -/
def ofDigits (base : Nat) (digits : List Nat) : Nat := digits.foldl (fun n d => base * n + d) 0

/-- A 64-bit integer. -/
def integer? (n : Int) : Option Toml :=
  if Int64.minValue.toInt ≤ n ∧ n ≤ Int64.maxValue.toInt then some (.integer n) else none

/-- A sign, read as whether it is a minus. -/
def sign : List Char → Bool × List Char
  | '-' :: rest => (true, rest)
  | '+' :: rest => (false, rest)
  | rest => (false, rest)

/-- The fraction of a float: its digits after a point, when one follows. -/
def fraction? : List Char → Option (List Nat × List Char)
  | '.' :: rest => digits? 10 rest
  | rest => some ([], rest)

/-- The exponent of a float, when one follows. -/
def exponent? (s : List Char) : Option (Option Int × List Char) :=
  match s with
  | 'e' :: rest | 'E' :: rest => do
    let (negative, rest) := sign rest
    let (digits, rest) ← digits? 10 rest
    let n : Int := ofDigits 10 digits
    some (some (if negative then -n else n), rest)
  | _ => some (none, s)

/-- Whether a decimal is within the range of double precision. -/
def isFinite (digits : List Nat) (exponent : Int) : Bool :=
  let n := ofDigits 10 digits
  let size := exponent + digitCount n
  if n = 0 ∨ size < 0 then true
  else if 310 < size then false
  else
    let scale (e : Int) : Nat := Nat.pow 10 e.toNat
    (FloatFormat.double.nearest? (n * scale exponent) (scale (-exponent))).isSome

/-- A decimal integer or a float after its sign; a float may overflow only below zero. -/
def decimal? (negative : Bool) (s : List Char) : Option (Toml × List Char) := do
  let (whole, rest) ←
    match s with
    | '0' :: rest => some ([0], rest)
    | _ => digits? 10 s
  let (fraction, rest) ← fraction? rest
  let (exponent, rest) ← exponent? rest
  if fraction.isEmpty && exponent.isNone then
    let n : Int := ofDigits 10 whole
    some (← integer? (if negative then -n else n), rest)
  else if negative || isFinite (whole ++ fraction) (exponent.getD 0 - fraction.length) then
    some (.float, rest)
  else none

/-- A number of any form; only decimal ones have a sign. -/
def number? (s : List Char) : Option (Toml × List Char) :=
  let inBase (base : Nat) (rest : List Char) := do
    let (digits, rest) ← digits? base rest
    some (← integer? (ofDigits base digits), rest)
  match s with
  | '0' :: 'x' :: rest => inBase 16 rest
  | '0' :: 'o' :: rest => inBase 8 rest
  | '0' :: 'b' :: rest => inBase 2 rest
  | _ =>
    let (negative, rest) := sign s
    match rest with
    | 'i' :: 'n' :: 'f' :: rest => some (.float, rest)
    | 'n' :: 'a' :: 'n' :: rest => some (.float, rest)
    | _ => decimal? negative rest

/-- A decimal number of exactly `count` digits, between two bounds. -/
def field? (count low high : Nat) (s : List Char) : Option (Nat × List Char) := do
  let digits ← (s.take count).mapM (digit? 10)
  let n := ofDigits 10 digits
  if digits.length = count ∧ low ≤ n ∧ n ≤ high then some (n, s.drop count) else none

/-- The text after a character that has to stand at its front. -/
def expect? (c : Char) : List Char → Option (List Char)
  | [] => none
  | d :: rest => if c = d then some rest else none

/-- The number of days of a month. -/
def daysIn (year month : Nat) : Nat :=
  if month = 2 then
    if year % 4 = 0 ∧ (year % 100 ≠ 0 ∨ year % 400 = 0) then 29 else 28
  else if month = 4 ∨ month = 6 ∨ month = 9 ∨ month = 11 then 30
  else 31

/-- The text after a date. -/
def date? (s : List Char) : Option (List Char) := do
  let (year, s) ← field? 4 0 9999 s
  let s ← expect? '-' s
  let (month, s) ← field? 2 1 12 s
  let s ← expect? '-' s
  let (_, s) ← field? 2 1 (daysIn year month) s
  some s

/-- The text after a time of day. -/
def time? (s : List Char) : Option (List Char) := do
  let (_, s) ← field? 2 0 23 s
  let s ← expect? ':' s
  let (_, s) ← field? 2 0 59 s
  let s ← expect? ':' s
  let (_, s) ← field? 2 0 60 s
  match s with
  | '.' :: c :: rest => if c.isDigit then some (rest.dropWhile Char.isDigit) else none
  | '.' :: [] => none
  | _ => some s

/-- The text after the offset of a time zone, when one follows. -/
def offset? (s : List Char) : Option (List Char) :=
  match s with
  | 'Z' :: rest | 'z' :: rest => some rest
  | '+' :: rest | '-' :: rest => do
    let (_, rest) ← field? 2 0 23 rest
    let rest ← expect? ':' rest
    let (_, rest) ← field? 2 0 59 rest
    some rest
  | _ => some s

/-- A date, a time of day, or both with an optional offset. -/
def dateTime? (s : List Char) : Option (Toml × List Char) :=
  match date? s with
  | some rest =>
    let after :=
      match rest with
      | 'T' :: time | 't' :: time => (time? time).bind offset?
      | ' ' :: time => if (time? time).isSome then (time? time).bind offset? else some rest
      | _ => some rest
    after.map fun rest => (.dateTime, rest)
  | none => (time? s).map fun rest => (.dateTime, rest)

/-- A scalar of any kind. -/
def scalarValue? (s : List Char) : Option (Toml × List Char) :=
  match s with
  | '"' :: _ | '\'' :: _ => (string? s).map fun (text, rest) => (.string text, rest)
  | 't' :: 'r' :: 'u' :: 'e' :: rest => some (.boolean true, rest)
  | 'f' :: 'a' :: 'l' :: 's' :: 'e' :: rest => some (.boolean false, rest)
  | _ => (dateTime? s).or (number? s)

end Retrace.Toml
