import Retrace.CType
import Retrace.Value

/-!
# Values as C source text

How a value is written where it replaces an expression. The type's class decides: integers in
decimal, `float` with an `f` and two places when whole, `double` with one place when whole,
printable characters in quotes, pointers as addresses. Texts stand as they are, and any other value
shows its own text.

Models `format_value` and `format_char`.
-/

namespace Retrace.Value

/-- A whole number of the given sign with zeros after the point. -/
def wholeText (places : Nat) (negative : Bool) (n : Nat) : String :=
  (if negative then "-" else "") ++ toString n ++ "." ++ String.ofList (List.replicate places '0')

/-- A number under a type of class `float`. -/
def floatText (x : Binary64) : String :=
  match x.whole? with
  | some (negative, n) => wholeText 2 negative n ++ "f"
  | none => x.singleText ++ "f"

/-- A number under a type of class `double`. -/
def doubleText (x : Binary64) : String :=
  match x.whole? with
  | some (negative, n) => wholeText 1 negative n
  | none => x.text

/-- A printable ASCII character in quotes. -/
def quotedChar (c : Char) : String :=
  match c with
  | '\'' => "'\\''"
  | '\\' => "'\\\\'"
  | _ => String.ofList ['\'', c, '\'']

/-- A number under a type of class `char`. -/
def charText (n : Int64) : String :=
  if 0x20 ≤ n.toInt ∧ n.toInt ≤ 0x7e then quotedChar (Char.ofNat n.toInt.toNat)
  else toString n.toInt

/-- The text of a value under a class of types. -/
def formatAs (c : TypeClass) (v : Value) : String :=
  match c, v with
  | _, .text s => s
  | .integer _ _, v | .bool, v => (v.toInt?.map fun n => toString n.toInt).getD v.display
  | .float, v => (v.toFloat?.map floatText).getD v.display
  | .double, v => (v.toFloat?.map doubleText).getD v.display
  | .char _, v => (v.toInt?.map charText).getD v.display
  | .pointer, .pointer address _ => addressText address.toNat
  | .pointer, .int n => addressText n.toUInt64.toNat
  | _, v => v.display

/-- The text of a value under a type. -/
def format (type : String) (v : Value) : String := v.formatAs (CType.classify type)

end Retrace.Value
