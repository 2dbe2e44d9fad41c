import Retrace.Text.Blank

/-!
# Classes of C types

A trace names a value's type by its C spelling. Only the broad class of the type matters to the
layout of a payload and to how a value is shown; it is read off the words of the spelling, without
qualifiers. The target has 32-bit addresses, and `long` is four bytes wide there.

Models `TypeClass`, `normalize` and `classify`.
-/

namespace Retrace

/-- The broad class of a C type. -/
inductive TypeClass where
  | integer (signed : Bool) (width : Nat)
  | char (signed : Bool)
  | bool
  | float
  | double
  | pointer
  | other
  deriving DecidableEq, Repr

namespace CType

/-- The qualifiers, which say nothing about layout. -/
def isQualifier (word : List Char) : Bool :=
  word == "const".toList || word == "volatile".toList || word == "restrict".toList

/-- The words of a type spelling, without qualifiers. -/
def words (spelling : List Char) : List (List Char) :=
  (Text.words spelling).filter fun word => !isQualifier word

/-- The spelling with single spaces between its words and without qualifiers. -/
def normalize (spelling : String) : String :=
  String.intercalate " " ((words spelling.toList).map String.ofList)

/-- Whether `(*)`, the mark of a pointer to a function or an array, occurs in a word. -/
def hasPointerMark : List Char → Bool
  | [] => false
  | c :: rest => "(*)".toList.isPrefixOf (c :: rest) || hasPointerMark rest

/-- Pointers and arrays: the spelling ends in `*` or `]`, or a word of it holds `(*)`. -/
def isPointer (words : List (List Char)) : Bool :=
  (match words.getLast?.bind List.getLast? with
    | some c => c == '*' || c == ']'
    | none => false) || words.any hasPointerMark

/-- The class of a type that is neither pointer nor array, by its words. -/
def arithmeticClass : List String → TypeClass
  | ["char"] | ["signed", "char"] => .char true
  | ["unsigned", "char"] => .char false
  | ["_Bool"] | ["bool"] => .bool
  | ["float"] => .float
  | ["double"] | ["long", "double"] => .double
  | ["short"] | ["short", "int"] | ["signed", "short"] | ["signed", "short", "int"] =>
    .integer true 2
  | ["unsigned", "short"] | ["unsigned", "short", "int"] => .integer false 2
  | ["int"] | ["signed"] | ["signed", "int"] => .integer true 4
  | ["long"] | ["long", "int"] | ["signed", "long"] | ["signed", "long", "int"] => .integer true 4
  | ["unsigned"] | ["unsigned", "int"] | ["unsigned", "long"] | ["unsigned", "long", "int"] =>
    .integer false 4
  | ["size_t"] => .integer false 4
  | ["long", "long"] | ["long", "long", "int"] => .integer true 8
  | ["signed", "long", "long"] | ["signed", "long", "long", "int"] => .integer true 8
  | ["unsigned", "long", "long"] | ["unsigned", "long", "long", "int"] => .integer false 8
  | _ => .other

/-- The class of a type spelling. -/
def classify (spelling : String) : TypeClass :=
  let words := words spelling.toList
  if isPointer words then .pointer else arithmeticClass (words.map String.ofList)

end CType

end Retrace
