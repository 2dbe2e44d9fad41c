import Retrace.Number.Binary64

/-!
# Runtime values

A value is what a step carries: an integer, a floating-point number, a text that the producer
formatted itself, or a pointer with a snapshot of the bytes around its target.

Models `DataValue` and `TypedValue`.
-/

namespace Retrace

/-- The four kinds of runtime value. -/
inductive Value where
  | int (n : Int64)
  | float (x : Binary64)
  | text (s : String)
  | pointer (address : UInt32) (snapshot : List UInt8)
  deriving DecidableEq, Repr

/-- A value with the C spelling of its type. -/
structure TypedValue where
  type : String
  value : Value
  deriving DecidableEq, Repr

/-- A number in lower-case hexadecimal with at least eight digits, after `0x`. -/
def addressText (n : Nat) : String :=
  let digits := Nat.toDigits 16 n
  String.ofList ('0' :: 'x' :: List.replicate (8 - digits.length) '0' ++ digits)

namespace Value

/-- The value as an integer: fractions are cut off, texts have none. -/
def toInt? : Value → Option Int64
  | .int n => some n
  | .float x => some x.truncate
  | .pointer address _ => some (Int64.ofNat address.toNat)
  | .text _ => none

/-- The value as a floating-point number: integers are rounded, texts have none. -/
def toFloat? : Value → Option Binary64
  | .int n => some (Binary64.ofInt n.toInt)
  | .float x => some x
  | .pointer address _ => some (Binary64.ofInt address.toNat)
  | .text _ => none

/-- The value's own text, whatever its type. -/
def display : Value → String
  | .int n => toString n.toInt
  | .float x => x.text
  | .text s => s
  | .pointer address _ => addressText address.toNat

end Value

end Retrace
